/-
The runtime's opcode mnemonic table, read out of its string section
(`rosetta_loader/src/opcode_table.{hpp,cpp}`).

The table is anchored on its first six names. From there the names are
read up to an empty string, the end of the section or a cap, and the
strings ahead are walked back to for the bound in the runtime's
`opcode_to_string` assert, which the list is then cut at. Every byte is
read through the section's bounds: a read outside it would leave the
parse without an answer.
-/
import X87Sidecar.Lib.Text

namespace X87Sidecar.Opcodes

open Lib.Text

/-- `OpcodeTable`. -/
structure OpcodeTable where
  names : List Str := []
  /-- zero when the bound was not found -/
  count : Nat := 0
  deriving DecidableEq, Repr

/-- The first opcodes of every runtime's table. -/
def headNames : List Str :=
  ["aaa", "aad", "aam", "aas", "adc", "add"].map ascii

/-- `kTableHead`: the head names, with the NUL of the string ahead. -/
def kTableHead : Str := 0 :: render headNames

/-- `kBoundPrefix`. -/
def kBoundPrefix : Str := ascii "index < "

/-- The function whose assert holds the bound. -/
def opcodeToString : Str := ascii "opcode_to_string"

/-- The cap on the names. -/
def kMaxNames : Nat := 1024

/-- The loop over the names, with `room` left under the cap. -/
def tableNames (data : Str) : (room p : Nat) → Option (List Str)
  | 0, _ => some []
  | room + 1, p =>
      if p < data.length then do
        let n ← strnlen data p (data.length - p)
        if n = 0 then return []
        else
          let s ← bytesAt data p n
          return s :: (← tableNames data room (p + n + 1))
      else some []

/-- Where the string that ends at an offset begins. -/
def stringBegin (data : Str) : (strEnd : Nat) → Option Nat
  | 0 => some 0
  | strEnd + 1 => do
      let b ← data[strEnd]?
      if b = 0 then return strEnd + 1 else stringBegin data strEnd

/-- `stringBefore`: the string that ends at an offset, and its own. -/
def stringBefore (data : Str) (strEnd : Nat) : Option (Nat × Str) := do
  let strBegin ← stringBegin data strEnd
  return (strBegin, ← bytesAt data strBegin (strEnd - strBegin))

/-- The count an assert string gives: the whole of what follows its
prefix, as a number. -/
def boundCount (prev : Str) : Nat :=
  match fromChars (prev.drop kBoundPrefix.length) with
  | some (count, []) => count
  | _ => 0

/-- The walk back over the strings ahead of the table, for at most `back`
of them. -/
def tableBound (data : Str) : (back strEnd : Nat) → Option Nat
  | 0, _ => some 0
  | back + 1, strEnd =>
      if 0 < strEnd then do
        let (strBegin, prev) ← stringBefore data strEnd
        let asserted ←
          if kBoundPrefix <+: prev ∧ 0 < strBegin then do
            let (_, s) ← stringBefore data (strBegin - 1)
            pure (decide (s = opcodeToString))
          else pure false
        if asserted then return boundCount prev
        else if strBegin = 0 then return 0
        else tableBound data back (strBegin - 1)
      else some 0

/-- `parseOpcodeTable`. -/
def parseOpcodeTable (data : Str) : Option OpcodeTable :=
  match search kTableHead data 0 with
  | none => some {}
  | some head =>
      if (search kTableHead data (head + 1)).isSome then some {}
      else do
        let names ← tableNames data kMaxNames (head + 1)
        let count ← tableBound data 4 head
        if count ≠ 0 ∧ names.length > count then
          return { names := names.take count, count }
        else return { names, count }

end X87Sidecar.Opcodes
