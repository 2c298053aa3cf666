import Peripheral.Report.Descriptor

/-!
# `Peripheral.Firmware.Device` — how the device presents itself on the bus
-/

namespace Peripheral.Firmware

/-- One interface: its report descriptor, and how often and in which portions it is asked. -/
structure Interface where
  descriptor : List Descriptor.Item
  pollMilliseconds : Nat
  packetBytes : Nat
  deriving DecidableEq, Repr

/-- What the host learns of the device. -/
structure Device where
  vendor : UInt16
  product : UInt16
  manufacturerName : String
  productName : String
  serial : String
  maxMilliamperes : Nat
  controlPacketBytes : Nat
  interfaces : List Interface
  deriving DecidableEq, Repr

/-- The device: a keyboard and a mouse. -/
def Device.standard : Device where
  vendor := 0x1209
  product := 0x0002
  manufacturerName := "hid-state"
  productName := "HID State Keyboard/Mouse"
  serial := "000001"
  maxMilliamperes := 100
  controlPacketBytes := 64
  interfaces := [⟨Descriptor.keyboard, 1, 8⟩, ⟨Descriptor.mouse, 1, 8⟩]

end Peripheral.Firmware
