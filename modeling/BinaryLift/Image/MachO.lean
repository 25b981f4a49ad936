import BinaryLift.Image.File

/-!
# Mach-O headers

A file starts with a number whose spelling tells its byte order and the width of its addresses, or
with the mark of a bundle of several files. After the header comes a row of load commands, each with
its number and its size; what a command refers to has to be in the file. Such files are checked but
not loaded.
-/

namespace BinaryLift.MachO

/-- The parts of a header that matter here. -/
structure Header where
  order : ByteOrder
  /-- Where the load commands start. -/
  size : Nat
  processor : Nat
  commandCount : Nat
  commandsSize : Nat

/-- The mark of a bundle. -/
def bundleMark : List Nat := [0xca, 0xfe, 0xba, 0xbe]

/-- The byte order of a file and the size of its header, if it starts with one of the marks. -/
def identity? (file : File) : Option (ByteOrder × Nat) :=
  if file.startsWith [0xce, 0xfa, 0xed, 0xfe] then some (.little, 28)
  else if file.startsWith [0xcf, 0xfa, 0xed, 0xfe] then some (.little, 32)
  else if file.startsWith [0xfe, 0xed, 0xfa, 0xce] then some (.big, 28)
  else if file.startsWith [0xfe, 0xed, 0xfa, 0xcf] then some (.big, 32)
  else none

/-- Read the header. A file of either width has room for the larger one. -/
def header? (file : File) (order : ByteOrder) (size : Nat) : Option Header := do
  let _ ← file.slice? 0 32
  return {
    order := order
    size := size
    processor := ← file.field? order 4 4
    commandCount := ← file.field? order 16 4
    commandsSize := ← file.field? order 20 4 }

/-! ### Load commands -/

/-- What a load command holds and refers to. -/
inductive Command where
  /-- A number of bytes that refer to nothing. -/
  | plain (size : Nat)
  /-- A part of the file, whose offset and size are at `place` and after it. -/
  | segment (size place width : Nat)
  /-- The symbols and, after them, their names. -/
  | symbols
  /-- A text, whose offset from the command follows the command's size. -/
  | named (size : Nat)
  /-- Registers of a thread, which may tell where the program starts. -/
  | thread (isEntry : Bool)
  /-- Where the program starts, from the start of its text. -/
  | entry
deriving DecidableEq

/-- The kind of a command by its number. -/
def Command.ofNumber : Nat → Command
  | 0x01 => .segment 56 32 4
  | 0x19 => .segment 72 40 8
  | 0x02 => .symbols
  | 0x04 => .thread false
  | 0x05 => .thread true
  | 0x80000028 => .entry
  | 0x0c | 0x0d | 0x20 | 0x80000018 | 0x8000001f | 0x80000023 => .named 24
  | 0x8000001c => .named 12
  | 0x0e | 0x0f | 0x12 | 0x13 | 0x14 | 0x15 | 0x17 | 0x27 => .plain 12
  | 0x03 | 0x09 | 0x16 | 0x1d | 0x1e | 0x24 | 0x25 | 0x26 | 0x29 | 0x2a | 0x2b | 0x2d | 0x2e | 0x2f
  | 0x30 | 0x80000033 | 0x80000034 => .plain 16
  | 0x06 | 0x07 | 0x10 | 0x21 => .plain 20
  | 0x1b | 0x2c | 0x32 => .plain 24
  | 0x80000035 => .plain 32
  | 0x11 | 0x31 => .plain 40
  | 0x22 | 0x80000022 => .plain 48
  | 0x1a => .plain 72
  | 0x0b => .plain 80
  | _ => .plain 8

/-- Bytes of a command that are always there. -/
def Command.size : Command → Nat
  | .plain size | .segment size _ _ | .named size => size
  | .symbols | .entry => 24
  | .thread _ => 16

/-- Processors whose registers are known: x86 and ARM of either width, and PowerPC with 32 bits. -/
def knownProcessors : List Nat := [7, 12, 18, 0x01000007, 0x0100000c, 0x0200000c]

/-- How many registers of a thread may be given, in units of four bytes. -/
def maxRegisters : Nat := 70

/-- Whether the file has what the command at an offset refers to. -/
def Command.fits? (file : File) (h : Header) (pos : Nat) : Command → Option Bool
  | .plain _ | .entry => some true
  | .segment _ place width => do
    let offset ← file.field? h.order (pos + place) width
    let size ← file.field? h.order (pos + place + width) width
    return size = 0 || offset + size ≤ file.size
  | .symbols => do
    let symbolsAt ← file.field? h.order (pos + 8) 4
    let namesAt ← file.field? h.order (pos + 16) 4
    return symbolsAt ≤ namesAt && symbolsAt < file.size
  | .named _ => do
    let offset ← file.field? h.order (pos + 8) 4
    return (file.textAt? (pos + offset)).isSome
  | .thread isEntry => do
    let count ← file.field? h.order (pos + 12) 4
    return count ≤ maxRegisters && pos + 16 + 4 * count ≤ file.size &&
      (!isEntry || knownProcessors.contains h.processor)

/-- Read the command at an offset, with the offset after it. -/
def command? (file : File) (h : Header) (pos : Nat) : Option (Command × Nat) := do
  let command := Command.ofNumber (← file.field? h.order pos 4)
  let size ← file.field? h.order (pos + 4) 4
  let _ ← file.slice? pos size
  let _ ← file.slice? pos command.size
  if (← command.fits? file h pos) then some (command, pos + size) else none

/-- A number of commands from an offset on, each with its own offset. -/
def commandsFrom? (file : File) (h : Header) : Nat → Nat → Option (List (Nat × Command))
  | 0, _ => some []
  | n + 1, pos => do
    let (command, next) ← command? file h pos
    return (pos, command) :: (← commandsFrom? file h n next)

/-- The load commands, of which a header announces no more than there are bytes for. -/
def commands? (file : File) (h : Header) : Option (List (Nat × Command)) :=
  if h.commandCount ≤ h.commandsSize / 8 ∧ h.commandsSize ≤ file.size then
    commandsFrom? file h h.commandCount h.size
  else none

/-- The name of the segment that holds the text of a program, with the NUL after it. -/
def textName : List Nat := [0x5f, 0x5f, 0x54, 0x45, 0x58, 0x54, 0]

/-- Whether a command at an offset describes the text. -/
def isText (file : File) : Nat × Command → Bool
  | (pos, .segment ..) =>
    (file.slice? (pos + 8) textName.length).any fun name => name.toList.map (·.toNat) = textName
  | _ => false

/-- Whether a program that starts somewhere in its text has one. -/
def entryFits (file : File) (commands : List (Nat × Command)) : Bool :=
  !commands.any (·.2 = .entry) || commands.any (isText file)

/-- Check the header of a file and its load commands. -/
def check (file : File) (order : ByteOrder) (size : Nat) : Except ImageError Unit := do
  let h ← orMalformed (header? file order size)
  if entryFits file (← orMalformed (commands? file h)) then return () else throw .malformed

end BinaryLift.MachO
