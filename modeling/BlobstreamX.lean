import BlobstreamX.Merkle.SplitPoint
import BlobstreamX.Merkle.Tree
import BlobstreamX.Merkle.Proofs
import BlobstreamX.Merkle.PathIndices
import BlobstreamX.Circuit.Header
import BlobstreamX.Circuit.Layer
import BlobstreamX.Circuit.Voting
import BlobstreamX.Circuit.Commitment
import BlobstreamX.Circuit.Validator
import BlobstreamX.Circuit.Marshal
import BlobstreamX.Circuit.Step
import BlobstreamX.Circuit.BitOrder
import BlobstreamX.Inputs.Generate
import BlobstreamX.Inputs.Witness
