import ContractYul.Ty.Basic
import ContractYul.Text.Hex

/-!
# Why a compilation is refused

Each way in which declarations or code can be at fault is a constructor; the wording of all of
them is in the `message` functions.
-/

namespace ContractYul

inductive RefKind where
  | type | struct | library | function | event | «class» | interface
  deriving DecidableEq

def RefKind.word : RefKind → String
  | .type => "type"
  | .struct => "struct"
  | .library => "library"
  | .function => "function"
  | .event => "event"
  | .class => "class"
  | .interface => "interface"

/-- Why a type text or a literal cannot be read. -/
inductive Malformation where
  | emptyType
  | unbalanced
  | emptyTupleElement
  | arrayWithoutElement
  | lengthNotInteger
  | zeroLength
  | arrayOfMappings
  | missingClose
  | mappingArity
  | mappingKey
  | punctuation
  | aliasOfReference
  | widthNotNumber
  | notIntegerLiteral
  | literalTooLong (bytes : Nat)
  | hex (fault : Text.HexFault)
  deriving DecidableEq

def Malformation.message : Malformation → String
  | .emptyType => "empty type"
  | .unbalanced => "unbalanced brackets"
  | .emptyTupleElement => "empty tuple element"
  | .arrayWithoutElement => "array without element type"
  | .lengthNotInteger => "array length is not an integer"
  | .zeroLength => "zero-length fixed array"
  | .arrayOfMappings => "dynamic array of mappings"
  | .missingClose => "missing closing `>`"
  | .mappingArity => "mapping needs exactly a key and a value type"
  | .mappingKey => "mapping key must be an elementary type"
  | .punctuation => "unexpected punctuation"
  | .aliasOfReference => "user-defined value type over a reference type"
  | .widthNotNumber => "width is not a number"
  | .notIntegerLiteral => "not an integer literal"
  | .literalTooLong bytes => s!"literal of {bytes} bytes does not fit"
  | .hex fault => fault.message

inductive Holder where
  | class (name : String)
  | library (name : String)
  | contract (name : String)
  | enum (name : String)
  | struct (name : String)
  /-- A field of the contract, used where there is no contract. -/
  | thisOutside (function : String)
  /-- A method of the contract, called where there is no contract. -/
  | thisIn (function : String)
  /-- A predefined object such as `msg`. -/
  | predefined (name : String)
  | value (ty : Ty)

def Holder.describe : Holder → String
  | .class name => "class " ++ name
  | .library name => "library " ++ name
  | .contract name => "contract " ++ name
  | .enum name => "enum " ++ name
  | .struct name => "struct " ++ name
  | .thisOutside function => "`this` outside a contract in " ++ function
  | .thisIn function => "`this` in " ++ function
  | .predefined name => name
  | .value ty => ty.describe

inductive ReadOnly where
  | constant | immutable
  deriving DecidableEq

def ReadOnly.word : ReadOnly → String
  | .constant => "constant"
  | .immutable => "immutable"

inductive Unsupported where
  | mappingInAbi
  | libraryDeployment (name : String)
  | abstractDeployment (name : String)
  | superAsValue
  | manyValues (count : Nat)
  | tupleAsValue
  | untypedRecord
  | outsideStorage (ty : Ty)
  | operator (name : String) (ty : Ty)
  | conversion (source target : Ty)
  | storageIndexing (label : String) (ty : Ty)
  | mappingAsValue
  | copyToMemory (ty : Ty)
  | assignToStorage (ty : Ty)
  | delete (ty : Ty)
  | memberToMemory (ty : Ty)
  | memberToStorage (ty : Ty)
  | transientReference (ty : Ty)
  | computedCallee (function : String)
  | bareDelegate
  | superOutsideConstructor
  | memoryArrayOperation (name : String)
  | deployment (name : String)
  | deploymentInChain (name : String)
  | hashOf (ty : Ty)
  | computedSignature
  | computedTypeList
  | nestedTry (function : String)
  | indexedField (ty : Ty)
  | abiEncoding (ty : Ty)
  | packedEncoding (ty : Ty)
  | manyArguments (count : Nat)
  | externalParameter (ty : Ty)

def Unsupported.message : Unsupported → String
  | .mappingInAbi => "mappings have no ABI representation"
  | .libraryDeployment name => s!"library `{name}` is not deployable"
  | .abstractDeployment name => s!"abstract class `{name}` is not deployable"
  | .superAsValue => "`super` used as a value"
  | .manyValues count => s!"{count} return values used as a single value"
  | .tupleAsValue => "tuple used as a single value"
  | .untypedRecord => "object literal without a struct type"
  | .outsideStorage ty => s!"`{ty.describe}` outside storage"
  | .operator name ty => s!"operator {name} on {ty.describe}"
  | .conversion source target => s!"conversion from {source.describe} to {target.describe}"
  | .storageIndexing label ty =>
    s!"indexing storage `{label}` ({ty.describe}); copy it to memory first"
  | .mappingAsValue => "mapping used as a value"
  | .copyToMemory ty => s!"copying storage `{ty.describe}` to memory"
  | .assignToStorage ty => s!"assigning `{ty.describe}` to storage"
  | .delete ty => s!"delete of `{ty.describe}`"
  | .memberToMemory ty => s!"copying struct member `{ty.describe}` to memory"
  | .memberToStorage ty => s!"copying struct member `{ty.describe}` to storage"
  | .transientReference ty => s!"transient `{ty.describe}` outside value types"
  | .computedCallee function => s!"calling a computed function value in {function}"
  | .bareDelegate => "`delegate(Interface, target)` must be followed by a method call"
  | .superOutsideConstructor => "`super(...)` outside a constructor"
  | .memoryArrayOperation name => s!"`{name}` on a memory array"
  | .deployment name => s!"cannot deploy `{name}`"
  | .deploymentInChain name => s!"`{name}` cannot deploy a class of its own chain"
  | .hashOf ty => s!"keccak256 of {ty.describe}"
  | .computedSignature => "abi.encodeWithSignature needs a string literal signature"
  | .computedTypeList => "abi.decode type list must name types"
  | .nestedTry function => s!"nested try in {function}"
  | .indexedField ty => s!"indexed event field of type {ty.describe}"
  | .abiEncoding ty => s!"`{ty.describe}` in ABI encoding"
  | .packedEncoding ty => s!"`{ty.describe}` in packed encoding"
  | .manyArguments count => s!"{count} arguments in one encoding"
  | .externalParameter ty => s!"`{ty.describe}` as an external parameter"

inductive Inconsistency where
  | methodWithoutBody (method className : String)
  | libraryMethodWithoutBody (function : String)
  | constantWithoutValue (name : String)
  | selfReferringConstant (name : String)
  | constantWithoutStorage (name : String)
  | voidUsedAs (ty : Ty) (function : String)
  | methodWithoutImplementation (name : String)
  | voidInitializer (name : String)
  | untypedLocal (name : String)
  | destructuringWithoutValue (names : List String)
  | undeclaredReturn (function : String)
  | sharedSelector (selector first second : String)

def Inconsistency.message : Inconsistency → String
  | .methodWithoutBody method className => s!"method `{method}` of {className} has no body"
  | .libraryMethodWithoutBody function => s!"library method `{function}` has no body"
  | .constantWithoutValue name => s!"constant `{name}` has no value"
  | .selfReferringConstant name => s!"constant `{name}` refers to itself"
  | .constantWithoutStorage name => s!"constant `{name}` has no storage"
  | .voidUsedAs ty function => s!"expression without a value used as {ty.describe} in {function}"
  | .methodWithoutImplementation name => s!"method `{name}` has no implementation"
  | .voidInitializer name => s!"`{name}` initialized from an expression without a value"
  | .untypedLocal name => s!"`{name}` has neither a type nor an initializer"
  | .destructuringWithoutValue names =>
    "destructuring `" ++ String.intercalate ", " names ++ "` without a value"
  | .undeclaredReturn function => s!"`{function}` returns a value but declares no return type"
  | .sharedSelector selector first second =>
    s!"selector {selector} shared by `{first}` and `{second}`"

inductive CompileError where
  /-- No refusal, but no answer either: declarations are followed from one to the next forever. -/
  | endless
  | duplicateStorageField (name first second : String)
  | duplicateSlotPin (slot : Nat) (first second : String)
  | reservedSlotPin (slot : Nat) (field : String)
  | unresolvedAncestor (name className : String)
  | cyclicInheritance (className : String)
  | unresolvedImport (path name : String)
  | unresolvedReference (kind : RefKind) (name : String)
  | classNotFound (name : String)
  | undefinedIdentifier (name function : String)
  | unknownMember (member : String) (holder : Holder)
  | malformedType (text : String) (reason : Malformation)
  | invalidWidth (text : String) (width : Nat)
  | cyclicStruct (name : String)
  | arityMismatch (callee : String) (expected got : Nat)
  | missingSuperImplementation (className method : String)
  | indexOutOfBounds (name : String) (index size : Nat)
  | tryWithoutCall (function : String)
  | tooManyIndexedFields (event : String) (count max : Nat)
  | transientUnsupported (field : String)
  | readOnlyAssignment (kind : ReadOnly) (name : String)
  | invalidAssignmentTarget (function : String)
  | unsupported (what : Unsupported)
  | inconsistent (what : Inconsistency)
  | invalidOptions

def CompileError.message : CompileError → String
  | .endless => "Declarations refer to one another without end"
  | .duplicateStorageField name first second =>
    s!"Duplicate storage field `{name}` declared by both {first} and {second}"
  | .duplicateSlotPin slot first second => s!"Slot {slot} is pinned by both `{first}` and `{second}`"
  | .reservedSlotPin slot field =>
    s!"Slot pin {slot} on `{field}` is inside the reserved immutable range"
  | .unresolvedAncestor name className => s!"Unresolved ancestor `{name}` of class {className}"
  | .cyclicInheritance className => s!"Cyclic inheritance through class {className}"
  | .unresolvedImport path name => s!"Unresolved import `{name}` from `{path}`"
  | .unresolvedReference kind name => s!"Unresolved {kind.word} `{name}`"
  | .classNotFound name => s!"Class `{name}` not found"
  | .undefinedIdentifier name function => s!"Undefined identifier `{name}` in {function}"
  | .unknownMember member holder => s!"Unknown member `{member}` on {holder.describe}"
  | .malformedType text reason => s!"Malformed type `{text}`: {reason.message}"
  | .invalidWidth text width => s!"Invalid width {width} for `{text}`"
  | .cyclicStruct name => s!"Cyclic struct embedding involving {name}"
  | .arityMismatch callee expected got => s!"`{callee}` expects {expected} argument(s), got {got}"
  | .missingSuperImplementation className method =>
    s!"No parent implementation of `{method}` above class {className}"
  | .indexOutOfBounds name index size => s!"Index {index} out of bounds for `{name}` of size {size}"
  | .tryWithoutCall function => s!"Guarded block in {function} contains no external call"
  | .tooManyIndexedFields event count max =>
    s!"Event {event} has {count} indexed fields, at most {max} allowed"
  | .transientUnsupported field => s!"Transient field `{field}` requires the cancun target"
  | .readOnlyAssignment kind name => s!"Cannot assign to {kind.word} `{name}`"
  | .invalidAssignmentTarget function => s!"Invalid assignment target in {function}"
  | .unsupported what => s!"Unsupported: {what.message}"
  | .inconsistent what => s!"Compiler error: {what.message}"
  | .invalidOptions => "Invalid options"

abbrev Outcome := Except CompileError

end ContractYul
