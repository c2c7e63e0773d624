import InstructionSet.Identifier

/-!
# Instructions

An instruction is recognised by its *selector chain*: the fields of its format
that have to hold given values, in the order in which they are looked at. What
else is declared of an instruction (text, timing, control flow) is carried along
for those who generate code from the description, and plays no part in decoding.
-/

namespace InstructionSet

/-- The demand that a field hold a value. -/
structure Selector where
  field : String
  value : Int64
deriving DecidableEq

/-- The demand as text. -/
def Selector.text (s : Selector) : String := s!"{s.field}={s.value}"

/-- Demands in the order in which they are looked at. -/
structure SelectorChain where
  toList : List Selector := []
deriving DecidableEq

namespace SelectorChain

/-- The chain with one more demand at its end. -/
def push (c : SelectorChain) (s : Selector) : SelectorChain := ⟨c.toList ++ [s]⟩

/-- The chain that demands what `selectors` say, in their order. -/
def ofList (selectors : List Selector) : SelectorChain := ⟨selectors⟩

def length (c : SelectorChain) : Nat := c.toList.length

def isEmpty (c : SelectorChain) : Bool := c.toList.isEmpty

/-- The value that the first demand on `field` asks for. -/
def value? (c : SelectorChain) (field : String) : Option Int64 :=
  (c.toList.find? (·.field = field)).map (·.value)

def text (c : SelectorChain) : String := ", ".intercalate (c.toList.map Selector.text)

theorem foldl_push (selectors : List Selector) (c : SelectorChain) :
    selectors.foldl push c = ⟨c.toList ++ selectors⟩ := by
  induction selectors generalizing c with
  | nil => simp
  | cons s rest ih => simp [ih, push]

end SelectorChain

/-- How an instruction transfers control. -/
structure ControlFlow where
  cond : Option String := none
  target : Option String := none
  delaySlots : UInt32 := 0
  delaySlotCond : Option String := none
  action : Option String := none
deriving DecidableEq

/-- An instruction as it is declared. -/
structure Instruction where
  id : InstructionId
  name : String
  mnemonic : String := name
  asm : String := ""
  /-- The name of the instruction's format. -/
  format : String
  /-- The size in bytes; a decoder fills it in from the format. -/
  size : UInt32 := 0
  cycles : UInt32 := 1
  minLatency : UInt32 := 1
  maxLatency : UInt32 := 1
  selectors : SelectorChain := {}
  controlFlow : Option ControlFlow := none
deriving DecidableEq

/-- The instruction with one more demand at the end of its chain. -/
def Instruction.select (i : Instruction) (field : String) (value : Int64) : Instruction :=
  { i with selectors := i.selectors.push ⟨field, value⟩ }

end InstructionSet
