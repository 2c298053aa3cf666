/-!
# `Peripheral.Report.Descriptor` — how the device describes its reports to the host

A report descriptor is a list of items. Global items (page, range, size, count) hold until they are
replaced, local ones (usages) until the next main item, and each input or output item declares the
fields that the items before it describe.

## Contents
- `Item`, `Item.bytes`: the items in use and their written form.
- `keyboard`, `mouse`: the two descriptors; `bytes` is what the host reads.
- `InputField`, `inputFields`: the input fields that a descriptor declares.
-/

namespace Peripheral.Descriptor

/-- An item of a report descriptor. -/
inductive Item
  | usagePage (page : UInt8)
  | usage (id : UInt8)
  | usageMinimum (id : UInt8)
  | usageMaximum (id : UInt8)
  | logicalMinimum (n : Int)
  | logicalMaximum (n : Int)
  | reportSize (bits : UInt8)
  | reportCount (fields : UInt8)
  | collection (kind : UInt8)
  | endCollection
  | input (flags : UInt8)
  | output (flags : UInt8)
  deriving DecidableEq, Repr

/-- An item with one byte of data. The last two bits of the first byte tell the number of data
    bytes. -/
def withByte (tag data : UInt8) : List UInt8 := [tag ||| 1, data]

/-- An item with a signed number, in one byte if it fits and in two otherwise, low byte first. -/
def withSigned (tag : UInt8) (n : Int) : List UInt8 :=
  if -128 ≤ n ∧ n ≤ 127 then [tag ||| 1, (Int8.ofInt n).toUInt8]
  else [tag ||| 2, (Int16.ofInt n).toUInt16.toUInt8, ((Int16.ofInt n).toUInt16 >>> 8).toUInt8]

/-- The written form of an item. -/
def Item.bytes : Item → List UInt8
  | usagePage page => withByte 0x04 page
  | usage id => withByte 0x08 id
  | usageMinimum id => withByte 0x18 id
  | usageMaximum id => withByte 0x28 id
  | logicalMinimum n => withSigned 0x14 n
  | logicalMaximum n => withSigned 0x24 n
  | reportSize bits => withByte 0x74 bits
  | reportCount fields => withByte 0x94 fields
  | collection kind => withByte 0xA0 kind
  | endCollection => [0xC0]
  | input flags => withByte 0x80 flags
  | output flags => withByte 0x90 flags

/-- The written form of a descriptor. -/
def bytes (items : List Item) : List UInt8 := items.flatMap Item.bytes

/-! ## The two descriptors -/

/-- Page of pointers, keyboards and axes. -/
def desktopPage : UInt8 := 0x01

/-- Page of the keys. -/
def keyPage : UInt8 := 0x07

/-- Page of the indicator lights. -/
def lightPage : UInt8 := 0x08

/-- Page of the buttons. -/
def buttonPage : UInt8 := 0x09

/-- The keyboard: eight modifier bits, a reserved byte, five lights with three bits of padding, and
    six keys. -/
def keyboard : List Item := [
  .usagePage desktopPage, .usage 0x06, .collection 0x01,
  .usagePage keyPage, .usageMinimum 0xE0, .usageMaximum 0xE7, .logicalMinimum 0, .logicalMaximum 1,
  .reportSize 1, .reportCount 8, .input 0x02,
  .reportCount 1, .reportSize 8, .input 0x01,
  .usagePage lightPage, .usageMinimum 1, .usageMaximum 5, .reportCount 5, .reportSize 1,
  .output 0x02,
  .reportCount 1, .reportSize 3, .output 0x01,
  .usagePage keyPage, .usageMinimum 0, .usageMaximum 0xFF, .logicalMinimum 0, .logicalMaximum 255,
  .reportCount 6, .reportSize 8, .input 0x00,
  .endCollection]

/-- The mouse: eight button bits, two 16-bit axes and an 8-bit wheel, axes and wheel relative. -/
def mouse : List Item := [
  .usagePage desktopPage, .usage 0x02, .collection 0x01,
  .usage 0x01, .collection 0x00,
  .usagePage buttonPage, .usageMinimum 1, .usageMaximum 8, .logicalMinimum 0, .logicalMaximum 1,
  .reportCount 8, .reportSize 1, .input 0x02,
  .usagePage desktopPage, .usage 0x30, .usage 0x31, .logicalMinimum (-32767), .logicalMaximum 32767,
  .reportSize 16, .reportCount 2, .input 0x06,
  .usage 0x38, .logicalMinimum (-127), .logicalMaximum 127, .reportSize 8, .reportCount 1,
  .input 0x06,
  .endCollection, .endCollection]

/-! ## What a descriptor declares -/

/-- Fields of one kind in an input report: their width, their number and the range of their values.
    -/
structure InputField where
  bits : Nat
  fields : Nat
  minimum : Int
  maximum : Int
  deriving DecidableEq, Repr

/-- The input fields that items declare, when the global items before them say `f`. -/
def inputFieldsFrom (f : InputField) : List Item → List InputField
  | [] => []
  | .logicalMinimum n :: rest => inputFieldsFrom { f with minimum := n } rest
  | .logicalMaximum n :: rest => inputFieldsFrom { f with maximum := n } rest
  | .reportSize bits :: rest => inputFieldsFrom { f with bits := bits.toNat } rest
  | .reportCount n :: rest => inputFieldsFrom { f with fields := n.toNat } rest
  | .input _ :: rest => f :: inputFieldsFrom f rest
  | _ :: rest => inputFieldsFrom f rest

/-- The input fields of a descriptor, in the order of their bits. -/
def inputFields (items : List Item) : List InputField := inputFieldsFrom ⟨0, 0, 0, 0⟩ items

/-- The mouse declares its buttons, its two axes and its wheel. -/
theorem inputFields_mouse :
    inputFields mouse = [⟨1, 8, 0, 1⟩, ⟨16, 2, -32767, 32767⟩, ⟨8, 1, -127, 127⟩] := rfl

end Peripheral.Descriptor
