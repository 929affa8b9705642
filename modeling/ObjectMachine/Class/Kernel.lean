import ObjectMachine.Class.Basic
import ObjectMachine.Method.Basic

/-!
# Kernel classes

The classes that the machine itself knows. Superclasses come before their subclasses.
-/

namespace ObjectMachine

/-- A class that the machine knows. -/
inductive KernelClass where
  | object
  | behavior
  | theClass
  | metaclass
  | undefinedObject
  | boolean
  | trueClass
  | falseClass
  | magnitude
  | character
  | number
  | integer
  | smallInteger
  | largeInteger
  | float
  | collection
  | array
  | byteArray
  | string
  | symbol
  | wordArray
  | floatArray
  | methodDictionary
  | association
  | message
  | compiledMethod
  | methodContext
  | blockContext
  | system
  deriving DecidableEq, Repr

namespace KernelClass

/-- The kernel classes, superclasses first. -/
def all : List KernelClass :=
  [.object, .behavior, .theClass, .metaclass, .undefinedObject, .boolean, .trueClass, .falseClass,
    .magnitude, .character, .number, .integer, .smallInteger, .largeInteger, .float, .collection,
    .array, .byteArray, .string, .symbol, .wordArray, .floatArray, .methodDictionary, .association,
    .message, .compiledMethod, .methodContext, .blockContext, .system]

/-- The number of kernel classes. -/
def count : Nat := 29

/-- The position of a class in the order of `all`. -/
@[inline] def index (c : KernelClass) : Fin count :=
  ⟨c.ctorIdx, by cases c <;> decide⟩

/-- The name of a kernel class, which is also the global that it is bound to. -/
def name : KernelClass → String
  | .object => "Object"
  | .behavior => "Behavior"
  | .theClass => "Class"
  | .metaclass => "Metaclass"
  | .undefinedObject => "UndefinedObject"
  | .boolean => "Boolean"
  | .trueClass => "True"
  | .falseClass => "False"
  | .magnitude => "Magnitude"
  | .character => "Character"
  | .number => "Number"
  | .integer => "Integer"
  | .smallInteger => "SmallInteger"
  | .largeInteger => "LargeInteger"
  | .float => "Float"
  | .collection => "Collection"
  | .array => "Array"
  | .byteArray => "ByteArray"
  | .string => "String"
  | .symbol => "Symbol"
  | .wordArray => "WordArray"
  | .floatArray => "FloatArray"
  | .methodDictionary => "MethodDictionary"
  | .association => "Association"
  | .message => "Message"
  | .compiledMethod => "CompiledMethod"
  | .methodContext => "MethodContext"
  | .blockContext => "BlockContext"
  | .system => "System"

/-- The superclass of a kernel class. Only the first has none. -/
def superclass? : KernelClass → Option KernelClass
  | .object => none
  | .theClass | .metaclass => some .behavior
  | .trueClass | .falseClass => some .boolean
  | .character | .number => some .magnitude
  | .integer | .float => some .number
  | .smallInteger | .largeInteger => some .integer
  | .array | .byteArray | .string | .wordArray | .floatArray => some .collection
  | .symbol => some .string
  | _ => some .object

/-- The shape of the instances of a kernel class. -/
def spec : KernelClass → InstanceSpec
  | .behavior | .theClass | .metaclass => ⟨.plain, Class.fieldCount⟩
  | .largeInteger => ⟨.largeInteger, 0⟩
  | .float => ⟨.float, 0⟩
  | .array => ⟨.array, 0⟩
  | .byteArray | .string | .symbol => ⟨.byteArray, 0⟩
  | .wordArray => ⟨.wordArray, 0⟩
  | .floatArray => ⟨.floatArray, 0⟩
  | .methodDictionary => ⟨.array, MethodDictionary.fieldCount⟩
  | .association => ⟨.plain, Association.fieldCount⟩
  | .message => ⟨.plain, Message.fieldCount⟩
  | .compiledMethod => ⟨.plain, Method.fieldCount⟩
  | .methodContext | .blockContext => ⟨.context, contextFields⟩
  | _ => ⟨.plain, 0⟩

end KernelClass

end ObjectMachine
