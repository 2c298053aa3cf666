import Peripheral.HoldTable
import Peripheral.Motion
import Peripheral.Report

/-!
# `Peripheral.Report.Rendering` — reports from what is held and moved

## Contents
- `HoldTable.keyboardReport`: the highest usages, as far as there is room.
- `HoldTable.mouseReport`: one bit for each button, and the motion cut to the width of its fields.
-/

namespace Peripheral.HoldTable

/-- The usages that a keyboard report lists: the highest ones, in descending order. -/
def listedKeys (t : HoldTable) : List UInt16 :=
  (t.holds.reverse.take Limits.keysPerReport).map Hold.usage

theorem listedKeys_eq (t : HoldTable) :
    t.listedKeys = (t.holds.map Hold.usage).reverse.take Limits.keysPerReport := by
  rw [listedKeys, List.map_take, List.map_reverse]

/-- The keyboard report of a table. Every usage in it has to fit a byte. -/
def keyboardReport (t : HoldTable) : Except Fault KeyboardReport :=
  if t.listedKeys.all fun usage => usage.toNat ≤ 255 then
    .ok (KeyboardReport.ofKeys (t.listedKeys.map UInt16.toUInt8))
  else
    .error .keyTooWide

/-- Usage 1 is the lowest bit of the bitmap. -/
def buttonBit (usage : UInt16) : UInt8 := 1 <<< (usage - 1).toUInt8

/-- The bitmap of the buttons that are held. -/
def buttonBits (holds : List Hold) : UInt8 :=
  holds.foldl (fun bits h => bits ||| buttonBit h.usage) 0

/-- The mouse report of a table and the motion that waits. Every usage has to have a bit. -/
def mouseReport (t : HoldTable) (m : Motion) : Except Fault MouseReport :=
  if t.holds.all fun h => 1 ≤ h.usage.toNat && h.usage.toNat ≤ Limits.mouseButtons then
    .ok ⟨buttonBits t.holds, Saturating.narrow m.dx, Saturating.narrow m.dy,
      Saturating.narrow m.wheel⟩
  else
    .error .buttonOutOfRange

end Peripheral.HoldTable
