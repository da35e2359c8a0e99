
namespace EventContexts.Text

def hexValue? (c : Char) : Option Nat :=
  if '0' ≤ c ∧ c ≤ '9' then some (c.toNat - 48)
  else if 'a' ≤ c ∧ c ≤ 'f' then some (c.toNat - 87)
  else if 'A' ≤ c ∧ c ≤ 'F' then some (c.toNat - 55)
  else none

def natInBase? (base : Nat) (cs : List Char) : Option Nat := do
  let values ← cs.mapM hexValue?
  if values.isEmpty ∨ values.any (fun v => base ≤ v) then none
  else some (values.foldl (fun n v => n * base + v) 0)

def charOfHex? (digits : List Char) : Option Char := do
  let n ← natInBase? 16 digits
  if n < 0xD800 ∨ 0xE000 ≤ n ∧ n < 0x110000 then some (Char.ofNat n) else none

end EventContexts.Text
