import Peripheral.Report

/-!
# `Peripheral.Report.Wire` — reports as bytes

A keyboard report takes eight bytes: modifiers, a reserved byte and six keys. A mouse report takes
six: buttons, `x` and `y` with the low byte first, and the wheel in one byte. The wheel byte stays
within -127 and 127, the range that the mouse declares for it.

## Contents
- `KeyboardReport.bytes`, `MouseReport.bytes`, `Report.bytes`: the written forms.
- `writeInto`: writing them to the front of a buffer.
-/

namespace Peripheral

namespace Wire

/-- The low byte of a number. -/
def lowByte (n : Int16) : UInt8 := n.toUInt16.toUInt8

/-- The high byte of a number. -/
def highByte (n : Int16) : UInt8 := (n.toUInt16 >>> 8).toUInt8

/-- A number in one byte, cut to the range from -127 to 127. -/
def wheelByte (n : Int16) : UInt8 := (Int8.ofInt (max (-127) (min 127 n.toInt))).toUInt8

/-- Write `bytes` to the front of a buffer and return how many were written. A buffer too short for
    all of them is left alone. -/
def writeInto (buffer bytes : List UInt8) : Nat × List UInt8 :=
  if buffer.length < bytes.length then (0, buffer)
  else (bytes.length, bytes ++ buffer.drop bytes.length)

end Wire

/-- The written form of a keyboard report. -/
def KeyboardReport.bytes (r : KeyboardReport) : List UInt8 :=
  r.modifier :: r.reserved :: r.keys

/-- The written form of a mouse report. -/
def MouseReport.bytes (r : MouseReport) : List UInt8 :=
  [r.buttons, Wire.lowByte r.x, Wire.highByte r.x, Wire.lowByte r.y, Wire.highByte r.y,
    Wire.wheelByte r.wheel]

/-- The written form of a report. -/
def Report.bytes : Report → List UInt8
  | keyboard r => r.bytes
  | mouse r => r.bytes

@[simp] theorem KeyboardReport.length_bytes (r : KeyboardReport) :
    r.bytes.length = Limits.keyboardReportBytes := by
  simp [bytes, r.keys_length, Limits.keysPerReport, Limits.keyboardReportBytes]

@[simp] theorem MouseReport.length_bytes (r : MouseReport) :
    r.bytes.length = Limits.mouseReportBytes := rfl

end Peripheral
