import Peripheral.Proofs.Bursts
import Peripheral.Proofs.LevelMap
import Peripheral.Report.Wire

/-!
# `Peripheral.Proofs.ReadBack` — what a host reads back from the bytes of a report

A host is sent bytes and has to find in them what is held. Numbers of 16 bits come back from their two bytes, and
the wheel from its one byte as far as that can tell it. The keys of a keyboard report are the highest usages that
are held, in descending order, and usage 0 is never held: a key byte that is 0 is a place left over. So six keys
at most are known from the bytes, each one of them, and of more keys the six highest.

## Contents
- `Wire.word`, `Wire.signedByte`: numbers from their bytes.
- `Wire.writeInto_of_lt`, `Wire.writeInto_of_le`: what becomes of a buffer.
- `KeyboardReport.ofBytes?`, `MouseReport.ofBytes?`: reports from their bytes.
- `HoldTable.Lists`, `KeyboardReport.keysDown`: the keys that a report lists.
- `HoldTable.known_from_bytes`: tables from the bytes of their reports.
-/

namespace Peripheral

/-! ## Numbers in bytes -/

namespace Wire

/-- The number of two bytes, the low one first. -/
def word (low high : UInt8) : Int16 := (UInt16.ofNat (low.toNat + 256 * high.toNat)).toInt16

/-- The signed number of one byte. -/
def signedByte (b : UInt8) : Int16 := b.toInt8.toInt16

theorem toNat_lowByte (n : Int16) : (lowByte n).toNat = n.toUInt16.toNat % 256 := UInt16.toNat_toUInt8 _

theorem toNat_highByte (n : Int16) : (highByte n).toNat = n.toUInt16.toNat / 256 := by
  have hlt := n.toUInt16.toNat_lt
  rw [highByte, UInt16.toNat_toUInt8, UInt16.toNat_shiftRight, Nat.shiftRight_eq_div_pow]
  show n.toUInt16.toNat / 256 % 256 = _
  omega

/-- **A number comes back from its two bytes.** -/
theorem word_lowByte_highByte (n : Int16) : word (lowByte n) (highByte n) = n := by
  unfold word
  rw [toNat_lowByte, toNat_highByte, Nat.mod_add_div, UInt16.ofNat_toNat]
  exact Int16.toInt16_toUInt16 n

/-- The byte of the wheel tells the nearest number that the wheel can have. -/
theorem toInt_signedByte_wheelByte (n : Int16) :
    (signedByte (wheelByte n)).toInt = max (-127) (min 127 n.toInt) := by
  unfold signedByte wheelByte
  rw [Int8.toInt8_toUInt8, Int8.toInt_toInt16, Int8.toInt_ofInt_of_le]
  <;> omega

/-! ## Buffers -/

variable {buffer bytes : List UInt8}

/-- A buffer that is too short is left alone. -/
theorem writeInto_of_lt (h : buffer.length < bytes.length) : writeInto buffer bytes = (0, buffer) := if_pos h

/-- Another one has the bytes in front, and is as it was behind them. -/
theorem writeInto_of_le (h : bytes.length ≤ buffer.length) :
    ∃ after, writeInto buffer bytes = (bytes.length, after) ∧ after.take bytes.length = bytes
      ∧ after.drop bytes.length = buffer.drop bytes.length ∧ after.length = buffer.length := by
  refine ⟨_, if_neg (Nat.not_lt.mpr h), List.take_left, List.drop_left, ?_⟩
  rw [List.length_append, List.length_drop]
  omega

end Wire

/-! ## Reports in bytes -/

/-- The keyboard report that some bytes are. -/
def KeyboardReport.ofBytes? : List UInt8 → Option KeyboardReport
  | modifier :: reserved :: keys =>
    if h : keys.length = Limits.keysPerReport then some ⟨modifier, reserved, keys, h⟩ else none
  | _ => none

/-- The mouse report that some bytes are. -/
def MouseReport.ofBytes? : List UInt8 → Option MouseReport
  | [buttons, xLow, xHigh, yLow, yHigh, wheel] =>
    some ⟨buttons, Wire.word xLow xHigh, Wire.word yLow yHigh, Wire.signedByte wheel⟩
  | _ => none

/-- **A keyboard report comes back from its bytes.** -/
theorem KeyboardReport.ofBytes?_bytes (r : KeyboardReport) : ofBytes? r.bytes = some r := dif_pos r.keys_length

/-- **So does a mouse report**, but for a wheel that its byte cannot tell. -/
theorem MouseReport.ofBytes?_bytes (r : MouseReport) :
    ofBytes? r.bytes = some { r with wheel := Wire.signedByte (Wire.wheelByte r.wheel) } := by
  show some (⟨r.buttons, Wire.word (Wire.lowByte r.x) (Wire.highByte r.x),
    Wire.word (Wire.lowByte r.y) (Wire.highByte r.y), _⟩ : MouseReport) = _
  rw [Wire.word_lowByte_highByte, Wire.word_lowByte_highByte]

/-- How many bytes a report takes. -/
def Report.size : Report → Nat
  | keyboard _ => Limits.keyboardReportBytes
  | mouse _ => Limits.mouseReportBytes

@[simp] theorem Report.length_bytes (r : Report) : r.bytes.length = r.size := by
  cases r with
  | keyboard k => exact k.length_bytes
  | mouse m => exact m.length_bytes

/-! ## Keys -/

/-- The keys that a report has down: its key bytes, but for the places that are left over. -/
def KeyboardReport.keysDown (r : KeyboardReport) : List UInt16 := (r.keys.filter (· ≠ 0)).map UInt8.toUInt16

namespace HoldTable

variable {t : HoldTable} {room : Nat} {keys : List UInt16}

/-- **Some keys are the highest usages of a table**, in descending order, and as many of them as there is room for
    in a report. -/
structure Lists (t : HoldTable) (keys : List UInt16) : Prop where
  descending : keys.Pairwise fun a b => b < a
  length : keys.length = min Limits.keysPerReport t.count
  held : ∀ usage ∈ keys, (t.level? usage).isSome = true
  highest : ∀ usage ∈ keys, ∀ other, (t.level? other).isSome = true → other ∉ keys → other < usage

/-- A report lists the highest usages. -/
theorem WellFormed.lists_listedKeys (hwf : t.WellFormed) : t.Lists t.listedKeys := by
  have hfalling : (t.holds.map Hold.usage).reverse.Pairwise fun a b => b < a :=
    List.pairwise_reverse.mpr (List.pairwise_map.mpr hwf.ascending_holds)
  have hmem : ∀ usage, usage ∈ (t.holds.map Hold.usage).reverse ↔ (t.level? usage).isSome = true := by
    intro usage
    rw [List.mem_reverse, hwf.mem_map_usage]
  rw [listedKeys_eq]
  exact
    { descending := hfalling.sublist (List.take_sublist _ _)
      length := by rw [List.length_take, List.length_reverse, List.length_map, hwf.length_holds]
      held := by
        intro usage husage
        exact (hmem usage).mp (List.mem_of_mem_take husage)
      highest := by
        intro usage husage other hother hunlisted
        -- A usage that is held and not listed stands behind all that are listed.
        rw [← hmem, ← List.take_append_drop Limits.keysPerReport (List.reverse _)] at hother
        rw [← List.take_append_drop Limits.keysPerReport (List.reverse _), List.pairwise_append] at hfalling
        exact hfalling.2.2 usage husage other ((List.mem_append.mp hother).resolve_left hunlisted) }

/-- The keys that are listed come first, and zeros behind them. -/
theorem Lists.keys_ofKeys (h : t.Lists keys) :
    (KeyboardReport.ofKeys (keys.map UInt16.toUInt8)).keys
      = keys.map UInt16.toUInt8 ++ List.replicate (Limits.keysPerReport - keys.length) 0 := by
  have hle : (keys.map UInt16.toUInt8).length ≤ Limits.keysPerReport := by
    rw [List.length_map, h.length]
    exact Nat.min_le_left _ _
  show (keys.map UInt16.toUInt8 ++ List.replicate Limits.keysPerReport 0).take Limits.keysPerReport = _
  rw [List.take_append, List.take_of_length_le hle, List.take_replicate, Nat.min_eq_left (Nat.sub_le _ _),
    List.length_map]

/-- Usage 0 is not listed. -/
theorem Lists.ne_zero (h : t.Lists keys) (hwf : t.WellFormed) {usage : UInt16} (husage : usage ∈ keys) :
    usage ≠ 0 := by
  rintro rfl
  have hheld := h.held 0 husage
  rw [hwf.level?_zero] at hheld
  cases hheld

/-- All usages that are held are listed if there is room for them. -/
theorem Lists.mem_iff (h : t.Lists keys) (hwf : t.WellFormed) (hroom : t.count ≤ Limits.keysPerReport)
    (usage : UInt16) : usage ∈ keys ↔ (t.level? usage).isSome = true := by
  refine ⟨h.held usage, ?_⟩
  intro hheld
  rw [← hwf.mem_map_usage] at hheld
  -- The list is as long as the usages that are held are many, and has none of them twice.
  have hnodup : keys.Nodup := h.descending.imp fun hlt => (UInt16.ne_of_lt hlt).symm
  have hsub : keys ⊆ t.holds.map Hold.usage := fun other hother => hwf.mem_map_usage.mpr (h.held other hother)
  have hlength : (t.holds.map Hold.usage).length ≤ keys.length := by
    rw [List.length_map, hwf.length_holds, h.length, Nat.min_eq_right hroom]
  exact ((hnodup.subperm hsub).perm_of_length_le hlength).mem_iff.mpr hheld

/-- Usages that fit a byte are read back from a report of them. -/
theorem Lists.keysDown_ofKeys (h : t.Lists keys) (hwf : t.WellFormed) (hbyte : ∀ usage ∈ keys, usage.toNat ≤ 255) :
    (KeyboardReport.ofKeys (keys.map UInt16.toUInt8)).keysDown = keys := by
  have hback : ∀ usage ∈ keys, usage.toUInt8.toUInt16 = usage := by
    intro usage husage
    have hle := hbyte usage husage
    rw [← UInt16.toNat_inj, UInt8.toNat_toUInt16, UInt16.toNat_toUInt8]
    omega
  have hpositive : ∀ b ∈ keys.map UInt16.toUInt8, decide (b ≠ 0) = true := by
    intro b hb
    obtain ⟨usage, husage, rfl⟩ := List.mem_map.mp hb
    apply decide_eq_true
    intro hzero
    have hback := hback usage husage
    rw [hzero] at hback
    exact h.ne_zero hwf husage hback.symm
  unfold KeyboardReport.keysDown
  rw [h.keys_ofKeys, List.filter_append, List.filter_eq_self.mpr hpositive, List.filter_replicate_of_neg (by decide),
    List.append_nil, List.map_map]
  exact (List.map_congr_left hback).trans (List.map_id keys)

/-- **What a table holds is known from the bytes of its reports.** Let a table have come from a new one.
    - If its usages fit a byte, it has a keyboard report: no modifier, a reserved byte of 0, the highest usages that
      are held, in descending order, and zeros. The report comes back from its bytes and the usages from the report,
      and if there are six at most, they are all that is held.
    - If its usages have bits, it has a mouse report for any motion, and the first byte of that has a button exactly
      if the button is held.
    - Any mouse report comes back from its bytes, but for the wheel, which is cut to the range from -127 to 127.
    - A report is written to the front of any buffer that has room for it, which is as it was behind the report, and
      a buffer that has no room is left alone. -/
theorem known_from_bytes {ops : List Operation} {effects : List (Option Effect)}
    (h : (empty room).performAll ops = .ok (t, effects)) :
    ((∀ usage, (t.level? usage).isSome = true → usage.toNat ≤ 255) →
        ∃ r keys, t.keyboardReport = .ok r ∧ t.Lists keys
          ∧ r.bytes = 0 :: 0 :: (keys.map UInt16.toUInt8 ++ List.replicate (6 - keys.length) 0)
          ∧ KeyboardReport.ofBytes? r.bytes = some r ∧ r.keysDown = keys
          ∧ (t.count ≤ 6 → ∀ usage, (t.level? usage).isSome = true ↔ usage ∈ r.keysDown))
      ∧ ((∀ usage, (t.level? usage).isSome = true → Renderable .mouse usage) →
          ∀ motion, ∃ r buttons rest, t.mouseReport motion = .ok r ∧ r.bytes = buttons :: rest
            ∧ ∀ usage, HasButton buttons usage ↔ (t.level? usage).isSome = true)
      ∧ (∀ r : MouseReport, ∃ wheel, MouseReport.ofBytes? r.bytes = some { r with wheel := wheel }
          ∧ wheel.toInt = max (-127) (min 127 r.wheel.toInt))
      ∧ ∀ (r : Report) (buffer : List UInt8),
        (buffer.length < r.size → Wire.writeInto buffer r.bytes = (0, buffer))
          ∧ (r.size ≤ buffer.length → ∃ after, Wire.writeInto buffer r.bytes = (r.size, after)
            ∧ after.take r.size = r.bytes ∧ after.drop r.size = buffer.drop r.size
            ∧ after.length = buffer.length) := by
  obtain ⟨m, hrep⟩ := exists_represents h
  have hwf := hrep.wellFormed
  have hheld : ∀ g ∈ t.holds, (t.level? g.usage).isSome = true := fun g hg =>
    hwf.mem_map_usage.mp (List.mem_map_of_mem hg)
  refine ⟨?keys, ?buttons, ?motion, ?buffers⟩
  case keys =>
    intro hbyte
    have hlists := hwf.lists_listedKeys
    have hlisted : ∀ usage ∈ t.listedKeys, usage.toNat ≤ 255 := fun usage husage =>
      hbyte usage (hlists.held usage husage)
    have hback := hlists.keysDown_ofKeys hwf hlisted
    refine ⟨_, t.listedKeys, keyboardReport_eq_ok fun g hg => hbyte _ (hheld g hg), hlists, ?_,
      KeyboardReport.ofBytes?_bytes _, hback, ?_⟩
    · unfold KeyboardReport.bytes
      rw [hlists.keys_ofKeys]
      rfl
    · intro hroom usage
      rw [hback]
      exact (hlists.mem_iff hwf hroom usage).symm
  case buttons =>
    intro hbits motion
    have hrenderable : ∀ g ∈ t.holds, Renderable .mouse g.usage := fun g hg => hbits _ (hheld g hg)
    exact ⟨_, _, _, mouseReport_eq_ok hrenderable motion, rfl, hwf.hasButton_buttonBits hrenderable⟩
  case motion =>
    intro r
    exact ⟨_, r.ofBytes?_bytes, Wire.toInt_signedByte_wheelByte r.wheel⟩
  case buffers =>
    intro r buffer
    rw [← r.length_bytes]
    exact ⟨Wire.writeInto_of_lt, Wire.writeInto_of_le⟩

/-- Three usages that keys and buttons can have are known from the keys of a keyboard report, and from the first byte
    of a mouse report. -/
theorem known_from_bytes_three_usages :
    let t : HoldTable := ⟨[Hold.vacant, ⟨1, 1⟩, ⟨3, 1⟩, ⟨8, 2⟩], 3⟩
    (∃ effects, (empty 4).performAll [.update 3 1, .update 8 2, .update 1 1, .update 5 1, .update 5 (-1)]
        = .ok (t, effects))
      ∧ (∀ usage, (t.level? usage).isSome = true → usage.toNat ≤ 255 ∧ Renderable .mouse usage)
      ∧ (∃ r, t.keyboardReport = .ok r ∧ r.bytes = [0, 0, 8, 3, 1, 0, 0, 0]
        ∧ ∀ usage, (t.level? usage).isSome = true ↔ usage ∈ r.keysDown)
      ∧ ∃ r rest, t.mouseReport .zero = .ok r ∧ r.bytes = 0x85 :: rest
        ∧ ∀ usage, HasButton 0x85 usage ↔ (t.level? usage).isSome = true := by
  intro t
  have h : (empty 4).performAll [.update 3 1, .update 8 2, .update 1 1, .update 5 1, .update 5 (-1)]
      = .ok (t, [some .changed, some .changed, some .changed, some .changed, some .changed]) := by decide +kernel
  have hheld : ∀ usage, (t.level? usage).isSome = true → usage.toNat ≤ 255 ∧ Renderable .mouse usage := by
    intro usage husage
    obtain ⟨m, hrep⟩ := exists_represents h
    obtain ⟨g, hg, rfl⟩ := List.mem_map.mp (hrep.wellFormed.mem_map_usage.mpr husage)
    have hbyte : ∀ g ∈ t.holds, g.usage.toNat ≤ 255 := by decide
    have hbit : ∀ g ∈ t.holds, Renderable .mouse g.usage := by decide
    exact ⟨hbyte g hg, hbit g hg⟩
  obtain ⟨hkeys, hbuttons, -, -⟩ := known_from_bytes h
  obtain ⟨r, keys, hreport, -, -, -, -, hknown⟩ := hkeys fun usage husage => (hheld usage husage).1
  obtain ⟨s, buttons, rest, hmouse, hbytes, hhas⟩ := hbuttons (fun usage husage => (hheld usage husage).2) .zero
  refine ⟨⟨_, h⟩, hheld, ⟨r, hreport, ?_, hknown (by decide)⟩, s, rest, hmouse, ?_⟩
  · cases hreport
    rfl
  · cases hmouse
    cases hbytes
    exact ⟨rfl, hhas⟩

end HoldTable

end Peripheral
