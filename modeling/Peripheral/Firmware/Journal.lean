import Peripheral.Power.Monitor
import Peripheral.Report

/-!
# `Peripheral.Firmware.Journal` — what can be seen of a running device

The journal lists log lines and finished writes in the order in which they happen.
-/

namespace Peripheral.Firmware

/-- What the tasks log. -/
inductive Notice
  /-- Power came on. -/
  | starting
  /-- The layout was accepted. -/
  | layoutLoaded (keys : Nat)
  /-- The host side has been set up. -/
  | usbReady
  /-- All tasks have been started. -/
  | allStarted
  /-- The bus task runs. -/
  | usbRunning
  /-- The writer runs. -/
  | writerRunning
  /-- The host took up or gave up the reports. -/
  | subscription (on : Bool)
  /-- There was no room for a report. -/
  | reportDropped (target : Target)
  /-- An endpoint refused a report. -/
  | writeFailed (target : Target)
  /-- A button is taken to be down or up. -/
  | button (key : UInt16) (pressed : Bool)
  /-- The power monitor reports. -/
  | power (notice : PowerNotice)
  deriving DecidableEq, Repr

/-- A number in lower-case hexadecimal digits after `0x`. -/
def hexText (n : UInt16) : String := "0x" ++ String.ofList (Nat.toDigits 16 n.toNat)

/-- The line that is logged. -/
def Notice.text : Notice → String
  | starting => "hid-state starting"
  | layoutLoaded keys => "Keymap loaded, " ++ toString keys ++ " keys"
  | usbReady => "USB HID composite device initialised (keyboard + mouse)"
  | allStarted => "All tasks spawned"
  | usbRunning => "USB device task started"
  | writerRunning => "HID writer task started - waiting for reports"
  | subscription on => "USB: reports " ++ if on then "subscribed" else "unsubscribed"
  | reportDropped target => "Report channel full, " ++ target.label ++ " report dropped"
  | writeFailed target => "USB " ++ target.label ++ " write failed: Usb"
  | button key pressed =>
    "Button " ++ hexText key ++ if pressed then " pressed" else " released"
  | power notice => notice.text

/-- Something seen from outside. -/
inductive Entry
  /-- A log line. -/
  | notice (n : Notice)
  /-- The write of a report to its endpoint is over. -/
  | written (r : Report) (ok : Bool)
  deriving DecidableEq, Repr

end Peripheral.Firmware
