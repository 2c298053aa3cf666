import Peripheral.Proofs.MotionCarried
import Peripheral.Proofs.ReadBack
import Peripheral.Report.Descriptor

/-!
# `Peripheral.Proofs.DeclaredRange` — mouse reports and the range that their descriptor declares

A host reads the bytes of a descriptor, finds the fields that it declares, and cuts the bits of a report into them.
A field whose value is outside its declared range tells it nothing. The wheel is cut to its range, and what is cut
to 16 bits is within the range of an axis at the upper end. At the lower end it is not: the descriptor declares
-32767, and 16 bits go down to -32768. So a report is in range unless the motion that it has to tell goes to the
lower end of 16 bits, or beyond it.

## Contents
- `Wire.number`, `Wire.signed`: numbers of any width from their bits.
- `Descriptor.pieces`, `Descriptor.fieldsOfBytes`: the fields that a host finds in the bytes of a descriptor.
- `fieldsOfBytes_bytes`: they are those that the items declare.
- `Descriptor.readings`, `InRange`: the fields of a report, and whether they are within their ranges.
- `readings_mouse`, `inRange_mouse_iff`: what a host finds in a mouse report.
- `due`, `History.along_due`: the motion that the reports of a turn have to tell.
- `History.mouse_inRange_iff`: when every mouse report is in range.
-/

namespace Peripheral

/-! ## Numbers from their bits -/

namespace Wire

/-- The number that some bytes make up, the low one first. -/
def number : List UInt8 → Nat
  | [] => 0
  | b :: rest => b.toNat + 256 * number rest

/-- The signed number that some bits make up. -/
def signed (width bits : Nat) : Int := if 2 * bits < 2 ^ width then bits else bits - 2 ^ width

theorem signed_toNat {width : Nat} (b : BitVec width) : signed width b.toNat = b.toInt := by
  rw [BitVec.toInt_eq_toNat_cond]
  rfl

theorem signed_toUInt16 (n : Int16) : signed 16 n.toUInt16.toNat = n.toInt := signed_toNat n.toBitVec

theorem signed_toUInt8 (n : Int8) : signed 8 n.toUInt8.toNat = n.toInt := signed_toNat n.toBitVec

/-- The two bytes of a number make it up. -/
theorem number_lowByte_highByte (n : Int16) : number [lowByte n, highByte n] = n.toUInt16.toNat := by
  simp only [number, toNat_lowByte, toNat_highByte]
  omega

theorem signed_wheelByte (n : Int16) : signed 8 (wheelByte n).toNat = max (-127) (min 127 n.toInt) := by
  rw [← toInt_signedByte_wheelByte, signedByte, Int8.toInt_toInt16]
  exact signed_toNat (wheelByte n).toBitVec

end Wire

namespace Descriptor

open Wire

/-! ## Descriptors in bytes -/

/-- The items of a descriptor as they are written, each with its tag and the bytes of its data. The last two bits of
    the first byte tell how many there are. -/
def pieces : List UInt8 → List (UInt8 × List UInt8)
  | [] => []
  | head :: rest =>
    match (head &&& 3).toNat, rest with
    | 0, rest => (head &&& 0xFC, []) :: pieces rest
    | 1, a :: rest => (head &&& 0xFC, [a]) :: pieces rest
    | 2, a :: b :: rest => (head &&& 0xFC, [a, b]) :: pieces rest
    | 3, a :: b :: c :: d :: rest => (head &&& 0xFC, [a, b, c, d]) :: pieces rest
    | _, _ => []

/-- The input fields that some items declare, when the global items before them say `f`. -/
def fieldsFrom (f : InputField) : List (UInt8 × List UInt8) → List InputField
  | [] => []
  | (tag, data) :: rest =>
    if tag = 0x14 then fieldsFrom { f with minimum := signed (8 * data.length) (number data) } rest
    else if tag = 0x24 then fieldsFrom { f with maximum := signed (8 * data.length) (number data) } rest
    else if tag = 0x74 then fieldsFrom { f with bits := number data } rest
    else if tag = 0x94 then fieldsFrom { f with fields := number data } rest
    else if tag = 0x80 then f :: fieldsFrom f rest
    else fieldsFrom f rest

/-- The input fields that a host finds in the bytes of a descriptor. -/
def fieldsOfBytes (descriptor : List UInt8) : List InputField := fieldsFrom ⟨0, 0, 0, 0⟩ (pieces descriptor)

/-- The data of an item with a signed number. -/
def signedData (n : Int) : List UInt8 :=
  if -128 ≤ n ∧ n ≤ 127 then [(Int8.ofInt n).toUInt8] else [lowByte (Int16.ofInt n), highByte (Int16.ofInt n)]

/-- A number of 16 bits comes back from the data of its item. -/
theorem signed_signedData {n : Int} (h : -32768 ≤ n ∧ n ≤ 32767) :
    signed (8 * (signedData n).length) (number (signedData n)) = n := by
  unfold signedData
  split
  · show signed 8 ((Int8.ofInt n).toUInt8.toNat + 256 * 0) = n
    rw [Nat.add_zero, signed_toUInt8, Int8.toInt_ofInt_of_le]
    <;> omega
  · show signed 16 _ = n
    rw [number_lowByte_highByte, signed_toUInt16, Int16.toInt_ofInt_of_le]
    <;> omega

/-- An item is written as its tag and its data. -/
def Item.piece : Item → UInt8 × List UInt8
  | usagePage page => (0x04, [page])
  | usage id => (0x08, [id])
  | usageMinimum id => (0x18, [id])
  | usageMaximum id => (0x28, [id])
  | logicalMinimum n => (0x14, signedData n)
  | logicalMaximum n => (0x24, signedData n)
  | reportSize bits => (0x74, [bits])
  | reportCount fields => (0x94, [fields])
  | collection kind => (0xA0, [kind])
  | endCollection => (0xC0, [])
  | input flags => (0x80, [flags])
  | output flags => (0x90, [flags])

theorem pieces_append (item : Item) (more : List UInt8) :
    pieces (item.bytes ++ more) = item.piece :: pieces more := by
  cases item with
  | logicalMinimum n | logicalMaximum n =>
    simp only [Item.bytes, Item.piece, withSigned, signedData]
    split <;> rfl
  | _ => rfl

/-- The items of a descriptor are found in its bytes. -/
theorem pieces_bytes (items : List Item) : pieces (bytes items) = items.map Item.piece := by
  induction items with
  | nil => rfl
  | cons item rest ih =>
    show pieces (item.bytes ++ bytes rest) = item.piece :: rest.map Item.piece
    rw [pieces_append, ih]

/-- The numbers of an item have 16 bits. -/
def Item.Short : Item → Prop
  | logicalMinimum n | logicalMaximum n => -32768 ≤ n ∧ n ≤ 32767
  | _ => True

/-- **A host finds the fields that a descriptor declares.** -/
theorem fieldsOfBytes_bytes {items : List Item} (h : ∀ item ∈ items, item.Short) :
    fieldsOfBytes (bytes items) = inputFields items := by
  have hfrom : ∀ f, fieldsFrom f (items.map Item.piece) = inputFieldsFrom f items := by
    induction items with
    | nil =>
      intro f
      rfl
    | cons item rest ih =>
      obtain ⟨hitem, hrest⟩ := List.forall_mem_cons.mp h
      intro f
      cases item with
      | logicalMinimum n =>
        show fieldsFrom { f with minimum := signed _ (number (signedData n)) } _ = _
        rw [signed_signedData hitem, ih hrest]
        rfl
      | logicalMaximum n =>
        show fieldsFrom { f with maximum := signed _ (number (signedData n)) } _ = _
        rw [signed_signedData hitem, ih hrest]
        rfl
      | input flags => exact congrArg (f :: ·) (ih hrest f)
      | _ => exact ih hrest _
  unfold fieldsOfBytes inputFields
  rw [pieces_bytes, hfrom]

/-! ## Reports by their descriptor -/

/-- The value of a field, which the lowest of some bits make up. It is signed if the field can be negative. -/
def InputField.value (f : InputField) (bits : Nat) : Int :=
  if f.minimum < 0 then signed f.bits (bits % 2 ^ f.bits) else (bits % 2 ^ f.bits : Nat)

/-- The values of some fields, one each, with the field that each is a value of. -/
def readings : List InputField → Nat → List (InputField × Int)
  | [], _ => []
  | f :: rest, bits => (f, f.value bits) :: readings rest (bits / 2 ^ f.bits)

/-- What a host that goes by a descriptor finds in a report. -/
def read (descriptor report : List UInt8) : List (InputField × Int) :=
  readings ((fieldsOfBytes descriptor).flatMap fun f => List.replicate f.fields f) (number report)

/-- **Every field of a report is within its declared range.** -/
def InRange (descriptor report : List UInt8) : Prop :=
  ∀ reading ∈ read descriptor report, reading.1.minimum ≤ reading.2 ∧ reading.2 ≤ reading.1.maximum

/-- The bit of a button. -/
def buttonField : InputField := ⟨1, 8, 0, 1⟩

/-- An axis of the pointer. -/
def axisField : InputField := ⟨16, 2, -32767, 32767⟩

/-- The wheel. -/
def wheelField : InputField := ⟨8, 1, -127, 127⟩

/-- The fields that a host finds in the descriptor of the mouse, one each. -/
theorem flatMap_fieldsOfBytes_mouse :
    ((fieldsOfBytes (bytes mouse)).flatMap fun f => List.replicate f.fields f)
      = List.replicate 8 buttonField ++ [axisField, axisField, wheelField] := by
  have hshort : ∀ item ∈ mouse, item.Short := by simp [mouse, Item.Short]
  rw [fieldsOfBytes_bytes hshort, inputFields_mouse]
  rfl

/-- Bits that are fields of their own are in range, and what is behind them is read on. -/
theorem readings_replicate_buttonField (count : Nat) (rest : List InputField) (n : Nat) :
    ∃ bits : List Int, bits.length = count ∧ (∀ bit ∈ bits, 0 ≤ bit ∧ bit ≤ 1)
      ∧ readings (List.replicate count buttonField ++ rest) n
        = bits.map (fun bit => (buttonField, bit)) ++ readings rest (n / 2 ^ count) := by
  induction count generalizing n with
  | zero => exact ⟨[], rfl, nofun, by simp⟩
  | succ count ih =>
    obtain ⟨bits, hlength, hrange, hread⟩ := ih (n / 2)
    refine ⟨((n % 2 : Nat) : Int) :: bits, by rw [List.length_cons, hlength], ?_, ?_⟩
    · exact List.forall_mem_cons.mpr ⟨by omega, hrange⟩
    · rw [Nat.div_div_eq_div_mul, ← Nat.pow_succ'] at hread
      exact congrArg ((buttonField, ((n % 2 : Nat) : Int)) :: ·) hread

/-- The bits of a mouse report are those of its fields, one behind the other. -/
theorem number_mouse (r : MouseReport) :
    number r.bytes = r.buttons.toNat + 2 ^ 8 * (r.x.toUInt16.toNat + 2 ^ 16 * (r.y.toUInt16.toNat
      + 2 ^ 16 * (wheelByte r.wheel).toNat)) := by
  have hx := number_lowByte_highByte r.x
  have hy := number_lowByte_highByte r.y
  simp only [number] at hx hy
  simp only [MouseReport.bytes, number]
  omega

/-- Behind the buttons a host finds the two axes as they are, and the wheel cut to its range. -/
theorem readings_axes (r : MouseReport) :
    readings [axisField, axisField, wheelField] (number r.bytes / 2 ^ 8)
      = [(axisField, r.x.toInt), (axisField, r.y.toInt),
        (wheelField, max (-127) (min 127 r.wheel.toInt))] := by
  have hbuttons := r.buttons.toNat_lt
  have hx := r.x.toUInt16.toNat_lt
  have hy := r.y.toUInt16.toNat_lt
  have hwheel := (wheelByte r.wheel).toNat_lt
  have hbits := number_mouse r
  generalize number r.bytes = bits at hbits ⊢
  have hfirst : bits / 2 ^ 8 % 2 ^ 16 = r.x.toUInt16.toNat := by omega
  have hsecond : bits / 2 ^ 8 / 2 ^ 16 % 2 ^ 16 = r.y.toUInt16.toNat := by omega
  have hthird : bits / 2 ^ 8 / 2 ^ 16 / 2 ^ 16 % 2 ^ 8 = (wheelByte r.wheel).toNat := by omega
  show [(_, signed 16 (bits / 2 ^ 8 % 2 ^ 16)), (_, signed 16 (bits / 2 ^ 8 / 2 ^ 16 % 2 ^ 16)),
    (_, signed 8 (bits / 2 ^ 8 / 2 ^ 16 / 2 ^ 16 % 2 ^ 8))] = _
  rw [hfirst, hsecond, hthird, signed_toUInt16, signed_toUInt16, signed_wheelByte]

/-- **What a host finds in a mouse report**: eight bits, the two axes, and the wheel. -/
theorem read_mouse (r : MouseReport) :
    ∃ bits : List Int, bits.length = 8 ∧ (∀ bit ∈ bits, 0 ≤ bit ∧ bit ≤ 1)
      ∧ read (bytes mouse) r.bytes
        = bits.map (fun bit => (buttonField, bit))
          ++ [(axisField, r.x.toInt), (axisField, r.y.toInt),
            (wheelField, max (-127) (min 127 r.wheel.toInt))] := by
  obtain ⟨bits, hlength, hrange, hread⟩ :=
    readings_replicate_buttonField 8 [axisField, axisField, wheelField] (number r.bytes)
  refine ⟨bits, hlength, hrange, ?_⟩
  unfold read
  rw [flatMap_fieldsOfBytes_mouse, hread, readings_axes]

/-- **A mouse report is in range if neither axis is at the lower end of 16 bits**, whatever its wheel. -/
theorem inRange_mouse_iff (r : MouseReport) :
    InRange (bytes mouse) r.bytes ↔ r.x.toInt ≠ -32768 ∧ r.y.toInt ≠ -32768 := by
  obtain ⟨bits, -, hrange, hread⟩ := read_mouse r
  have hx := r.x.toInt_lt
  have hx' := r.x.le_toInt
  have hy := r.y.toInt_lt
  have hy' := r.y.le_toInt
  unfold InRange
  rw [hread]
  simp only [List.mem_append, List.mem_map, List.mem_cons, List.not_mem_nil, or_false]
  constructor
  · intro h
    have hx := h _ (.inr (.inl rfl))
    have hy := h _ (.inr (.inr (.inl rfl)))
    dsimp only [axisField] at hx hy
    omega
  · rintro ⟨hxne, hyne⟩ reading (⟨bit, hbit, rfl⟩ | rfl | rfl | rfl)
    · exact hrange bit hbit
    all_goals
      dsimp only [axisField, wheelField]
      omega

end Descriptor

/-! ## Motion that is due -/

variable {layout : Layout} {window : UInt32} {turns : List Turn} {a : Aggregator}

/-- The motion that is due in a turn: what the host is owed from the turns before it, if the turn does not open a
    session, and the motion that the turn brings. -/
def due (axis : Axis) (before : List Turn) (t : Turn) : Int :=
  owed axis ((if t.opens then [] else sessionBeats before) ++ [.felt t.input])

/-- **The first mouse report of a turn tells of the motion that is due**, and those behind it tell of none. -/
theorem History.along_due (h : History layout window turns a) (axis : Axis) :
    Along (fun before t => ∀ r rest, mouseReports t.said = r :: rest →
      r.along axis = clamp16 (due axis before t) ∧ ∀ s ∈ rest, s.along axis = 0) turns := by
  intro before t after hturns r rest hsaid
  obtain ⟨hbefore, hstep⟩ := h.along before t after hturns
  have hsettles := ((hbefore.turn hstep).carried axis).settles
  have hbeats : sessionBeats (before ++ [t])
      = (if t.opens then [] else sessionBeats before) ++ [.felt t.input] ++ (r :: rest).map .told := by
    rw [sessionBeats_append_singleton, ← hsaid, ← append_beats]
    split <;> rfl
  rw [hbeats] at hsettles
  refine ⟨hsettles _ r (rest.map .told) rfl, ?_⟩
  intro s hs
  rw [← List.append_nil (_ ++ _)] at hsettles
  exact hsettles.along_eq_zero_of_told hs

/-- **When every mouse report is in range.** Let a host go by the bytes of the descriptor. In a mouse report it finds
    button bits of 0 and 1, a wheel within its range, and two axes that are not above theirs, and the report is in
    range unless an axis is below. In every run of the aggregator, all mouse reports are in range exactly if in every
    turn that says one, the motion that is due is above the lower end of 16 bits in both directions of the pointer. -/
theorem History.mouse_inRange_iff (h : History layout window turns a) :
    (∀ r : MouseReport, ∃ (bits : List Int) (wheel : Int),
        (Descriptor.read (Descriptor.bytes Descriptor.mouse) r.bytes).map Prod.snd
            = bits ++ [r.x.toInt, r.y.toInt, wheel]
          ∧ bits.length = 8 ∧ (∀ bit ∈ bits, 0 ≤ bit ∧ bit ≤ 1) ∧ -127 ≤ wheel ∧ wheel ≤ 127
          ∧ r.x.toInt ≤ 32767 ∧ r.y.toInt ≤ 32767
          ∧ (Descriptor.InRange (Descriptor.bytes Descriptor.mouse) r.bytes
            ↔ r.x.toInt ≠ -32768 ∧ r.y.toInt ≠ -32768))
      ∧ ((∀ t ∈ turns, ∀ r ∈ mouseReports t.said,
          Descriptor.InRange (Descriptor.bytes Descriptor.mouse) r.bytes)
        ↔ Along (fun before t => mouseReports t.said ≠ [] →
            -32768 < due .x before t ∧ -32768 < due .y before t) turns) := by
  refine ⟨?reading, ?range, ?due⟩
  case reading =>
    intro r
    obtain ⟨bits, hlength, hrange, hread⟩ := Descriptor.read_mouse r
    have hx := r.x.toInt_lt
    have hy := r.y.toInt_lt
    refine ⟨bits, max (-127) (min 127 r.wheel.toInt), ?_, hlength, hrange, by omega, by omega, by omega, by omega,
      Descriptor.inRange_mouse_iff r⟩
    rw [hread, List.map_append, List.map_map]
    exact congrArg (· ++ _) (List.map_id bits)
  case range =>
    intro hall before t after hturns hsome
    obtain ⟨r, rest, hsaid⟩ := List.exists_cons_of_ne_nil hsome
    have hx := (h.along_due .x before t after hturns r rest hsaid).1
    have hy := (h.along_due .y before t after hturns r rest hsaid).1
    have hmem : t ∈ turns := by simp [hturns]
    obtain ⟨hxne, hyne⟩ := (Descriptor.inRange_mouse_iff r).mp (hall t hmem r (by simp [hsaid]))
    change r.x.toInt = _ at hx
    change r.y.toInt = _ at hy
    unfold clamp16 at hx hy
    omega
  case due =>
    intro hdue t ht r hr
    obtain ⟨before, after, hturns⟩ := List.append_of_mem ht
    obtain ⟨first, rest, hsaid⟩ := List.exists_cons_of_ne_nil (List.ne_nil_of_mem hr)
    obtain ⟨hduex, hduey⟩ := hdue before t after hturns (List.ne_nil_of_mem hr)
    obtain ⟨hx, hxrest⟩ := h.along_due .x before t after hturns first rest hsaid
    obtain ⟨hy, hyrest⟩ := h.along_due .y before t after hturns first rest hsaid
    rw [Descriptor.inRange_mouse_iff]
    show r.along .x ≠ -32768 ∧ r.along .y ≠ -32768
    rw [hsaid] at hr
    rcases List.mem_cons.mp hr with rfl | hr
    · rw [hx, hy]
      unfold clamp16
      omega
    · rw [hxrest r hr, hyrest r hr]
      decide

/-- Motion adds up on a busy link to the lower end of the declared range, and is in range when it is told. -/
theorem mouse_inRange_above_lower_end :
    ∃ turns a, History Layout.standard 500 turns a
      ∧ turns.map Turn.stimulus
        = [(.link true, 0), (.motion 5 (-7), 1), (.motion (-32768) 0, 2), (.motion 1 (-9), 3), (.delivered .mouse, 4)]
      ∧ (∃ t ∈ turns, ∃ r ∈ mouseReports t.said, r.x.toInt = -32767)
      ∧ ∀ t ∈ turns, ∀ r ∈ mouseReports t.said,
        Descriptor.InRange (Descriptor.bytes Descriptor.mouse) r.bytes := by
  obtain ⟨turns, a, h, hinputs, hstate⟩ := exists_history Layout.standard 500
    [(.link true, 0), (.motion 5 (-7), 1), (.motion (-32768) 0, 2), (.motion 1 (-9), 3), (.delivered .mouse, 4)]
    (fun turns _ => decide ((∃ t ∈ turns, ∃ r ∈ mouseReports t.said, r.x.toInt = -32767)
      ∧ Along (fun before t => mouseReports t.said ≠ [] →
        -32768 < due .x before t ∧ -32768 < due .y before t) turns)) (by decide +kernel)
  obtain ⟨htold, hdue⟩ := of_decide_eq_true hstate
  exact ⟨turns, a, h, hinputs, htold, h.mouse_inRange_iff.2.mpr hdue⟩

/-- Motion of the lower end of 16 bits is told as it is, and that is below the range that is declared for it. -/
theorem mouse_not_inRange_at_lower_end :
    ∃ turns a, History Layout.standard 500 turns a
      ∧ turns.map Turn.stimulus = [(.link true, 0), (.motion (-32768) 0, 1)]
      ∧ ∃ t ∈ turns, ∃ r ∈ mouseReports t.said, r.x.toInt = -32768
        ∧ ¬ Descriptor.InRange (Descriptor.bytes Descriptor.mouse) r.bytes := by
  obtain ⟨turns, a, h, hinputs, hstate⟩ := exists_history Layout.standard 500
    [(.link true, 0), (.motion (-32768) 0, 1)]
    (fun turns _ => decide (∃ t ∈ turns, ∃ r ∈ mouseReports t.said, r.x.toInt = -32768)) (by decide +kernel)
  obtain ⟨t, ht, r, hr, hx⟩ := of_decide_eq_true hstate
  refine ⟨turns, a, h, hinputs, t, ht, r, hr, hx, ?_⟩
  intro hrange
  exact ((Descriptor.inRange_mouse_iff r).mp hrange).1 hx

end Peripheral
