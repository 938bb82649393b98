import TreeProver.Circuits.Library
import TreeProver.Main
import TreeProver.Proofs.Build.Completeness
import TreeProver.Proofs.Build.Matrices
import TreeProver.Proofs.Circuits.Commitments
import TreeProver.Proofs.Circuits.PublicInputs
import TreeProver.Proofs.Circuits.Size
import TreeProver.Proofs.Field.Squares
import TreeProver.Proofs.Files.Failure
import TreeProver.Proofs.Layout.Reconstruction
import TreeProver.Proofs.Tree.Binding
import TreeProver.Proofs.Files.Success
import TreeProver.Proofs.Circuits.History
import TreeProver.Proofs.Binary.Readers
import TreeProver.Proofs.Build.Storage
import TreeProver.Proofs.Command.Arguments
import TreeProver.Proofs.Command.Configuration
import TreeProver.Proofs.Command.Run
import TreeProver.Proofs.Build.Damage
import TreeProver.Proofs.Tree.Replacement
import TreeProver.Proofs.Json.Storage
import TreeProver.Proofs.Circuits.ListRoot
import TreeProver.Proofs.Tree.Subtrees
import TreeProver.Proofs.Tree.Composition
import TreeProver.Proofs.Binary.Codes
import TreeProver.Proofs.Calldata
import TreeProver.Proofs.Contract
import TreeProver.Proofs.Tree.Extraction
import TreeProver.Proofs.Spelling
import TreeProver.Proofs.Binary.Masks
import TreeProver.Proofs.Circuits.Buffers
import TreeProver.Proofs.Command.Search
import TreeProver.Proofs.Command.Precedence
