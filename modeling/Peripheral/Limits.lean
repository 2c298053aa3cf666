/-!
# `Peripheral.Limits` — the sizes and times the device is built with

## Contents
- Room: places in tables, backlog, reports and channels.
- Times: staleness window, idle time, debounce time and tick.
-/

namespace Peripheral.Limits

/-! ## Room -/

/-- Usages that one report can hold at a time. -/
def tablePlaces : Nat := 10

/-- Updates that can wait to be reported. -/
def backlogPlaces : Nat := 12

/-- Keys in one keyboard report. -/
def keysPerReport : Nat := 6

/-- Buttons of the mouse, one bit of the bitmap each. -/
def mouseButtons : Nat := 8

/-- Input events that can wait for the aggregator. -/
def inputPlaces : Nat := 16

/-- Reports that can wait for the writer. -/
def reportPlaces : Nat := 16

/-- Bytes of a keyboard report on the wire. -/
def keyboardReportBytes : Nat := 8

/-- Bytes of a mouse report on the wire. -/
def mouseReportBytes : Nat := 6

/-! ## Times -/

/-- Milliseconds after which a waiting update is stale. -/
def staleAfter : UInt32 := 500

/-- Seconds without activity after which the device idles. -/
def idleSeconds : Nat := 60

/-- Milliseconds for which a button's level has to settle. -/
def debounce : Nat := 20

/-- Milliseconds between two looks at the idle time. -/
def tick : Nat := 1000

end Peripheral.Limits
