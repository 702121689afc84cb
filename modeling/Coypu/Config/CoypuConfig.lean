import Coypu.Http.Head
import Mathlib.Logic.Function.Basic

/-!
# The configuration

A configuration is a tree of `CoypuConfig` objects: a map, a sequence, or a scalar. `Parse` builds
it from the events of the YAML parser. It keeps the object that is being filled and a stack of those
it lies in, and puts a new object into its parent before it fills it, so the objects live on a heap
here and are referred to by address.

A map gets its keys and its values one after the other, and a flag in it says which is next. The map
at the root is given the key `<<ROOT>>` before the first event.

The parser is not modelled, only its events: an event, or an error. Assertions are compiled in, and
an assertion that fails ends the program.
-/

set_option autoImplicit false

namespace Coypu

/-! ## `CoypuConfig` -/

inductive CoypuConfigType where
  | map
  | sequence
  | scalar
deriving DecidableEq

structure CoypuConfig where
  type : CoypuConfigType
  seqs : List ℕ
  maps : List (List UInt8 × ℕ)
  value : List UInt8
  lastKey : List UInt8
  isValue : Bool
deriving DecidableEq

namespace CoypuConfig

def ofType (type : CoypuConfigType) : CoypuConfig := ⟨type, [], [], [], [], false⟩

def ofValue (value : List UInt8) : CoypuConfig := ⟨.scalar, [], [], value, [], false⟩

/-- `insert` of an `unordered_map`: a key that is there keeps its value. -/
def insert (maps : List (List UInt8 × ℕ)) (key : List UInt8) (item : ℕ) : List (List UInt8 × ℕ) :=
  match maps.lookup key with
  | none => maps ++ [(key, item)]
  | some _ => maps

/-- `Add` of the object `newItem` at an address. -/
def add (config newItem : CoypuConfig) (item : ℕ) : Option CoypuConfig :=
  match config.type with
  | .map =>
    if config.isValue then
      some { config with maps := insert config.maps config.lastKey item, isValue := false }
    else if newItem.type = .scalar then
      some { config with lastKey := newItem.value, isValue := true }
    else none
  | .sequence => some { config with seqs := config.seqs ++ [item] }
  | .scalar => none

end CoypuConfig

/-! ## `Parse` -/

/-- The events of the parser. A scalar comes with its length, and may hold any byte. -/
inductive YamlEvent where
  | noEvent
  | streamStart
  | streamEnd
  | documentStart
  | documentEnd
  | alias
  | scalar (value : List UInt8)
  | sequenceStart
  | sequenceEnd
  | mappingStart
  | mappingEnd

/-- The heap, of which the first `size` addresses are in use, the current object, and the stack with
its top first. -/
structure ConfigParser where
  heap : ℕ → CoypuConfig
  size : ℕ
  curConfig : ℕ
  configStack : List ℕ

namespace ConfigParser

variable (s : ConfigParser)

/-- A new object is added to the current one. -/
def addNew (newItem : CoypuConfig) : Option ConfigParser :=
  ((s.heap s.curConfig).add newItem s.size).map fun config ↦
    { s with
      heap := Function.update (Function.update s.heap s.size newItem) s.curConfig config
      size := s.size + 1 }

/-- A new map or sequence becomes the current object. -/
def push (type : CoypuConfigType) : Option ConfigParser :=
  (s.addNew (.ofType type)).map fun s' ↦
    { s' with curConfig := s.size, configStack := s.curConfig :: s.configStack }

/-- The object below is the current one again. -/
def pop : Option ConfigParser :=
  match s.configStack with
  | [] => none
  | config :: rest => some { s with curConfig := config, configStack := rest }

/-- One event. A scalar is taken for a string that ends with its first zero. -/
def step : YamlEvent → Option ConfigParser
  | .sequenceStart => s.push .sequence
  | .sequenceEnd => s.pop
  | .mappingStart => s.push .map
  | .mappingEnd => s.pop
  | .alias => none
  | .scalar value => s.addNew (.ofValue (Head.cStr value))
  | .streamEnd | .noEvent | .streamStart | .documentStart | .documentEnd => some s

/-- The loop over the events, each of which may be an error. It returns the parser behind the last
one, or nothing after an error. `none` is an assertion that fails, or a loop that does not end. -/
def loop : ConfigParser → List (Option YamlEvent) → Option (Option ConfigParser)
  | _, [] => none
  | _, none :: _ => some none
  | s, some .streamEnd :: _ => some (some s)
  | s, some e :: events => (s.step e).bind fun s' ↦ loop s' events

end ConfigParser

namespace CoypuConfig

def rootKey : List UInt8 := ascii "<<ROOT>>"

/-- The address of `rootConfig`. -/
def rootConfig : ℕ := 0

/-- The parser before the first event. -/
def start : Option ConfigParser :=
  ConfigParser.addNew ⟨fun _ ↦ ofType .map, 1, rootConfig, []⟩ (ofValue rootKey)

/-- `Parse`. There is no input if the file cannot be opened. -/
def parse : Option (List (Option YamlEvent)) → Option (Option ConfigParser)
  | none => some none
  | some input => start.bind fun s ↦ s.loop input

/-- `GetConfig`. -/
def getConfig (config : CoypuConfig) (name : List UInt8) : Option ℕ := config.maps.lookup name

end CoypuConfig

end Coypu
