import ContractYul.Json.Settled
import ContractYul.Source.Builder
import ContractYul.Source.Codec
import ContractYul.Proofs.Lowering.Loops
import ContractYul.Proofs.Compilation.Events
import ContractYul.Proofs.Compilation.Arity
import ContractYul.Proofs.Coding.RoundTrip
import ContractYul.Proofs.Coding.Targets
import ContractYul.Proofs.Storage.Agreement
import ContractYul.Proofs.Storage.Entries
import ContractYul.Proofs.Storage.Growth
import ContractYul.Proofs.Storage.Refusals
import ContractYul.Proofs.Storage.Stability
import ContractYul.Proofs.Text.Number
import ContractYul.Proofs.Tracing.Transient
import ContractYul.Proofs.Coding.Allocation
import ContractYul.Proofs.Lowering.Bounds
import ContractYul.Proofs.Lowering.Targets
import ContractYul.Proofs.Compilation.Description
import ContractYul.Proofs.Compilation.Deployment
import ContractYul.Proofs.Compilation.Inlining
import ContractYul.Proofs.Lowering.Getters
