import FleetTelemetry.Lib.FlatBuffers

/-!
# Serialisations

What it means for a buffer to serialise a table, whoever wrote it: the table, its
vtable and its vectors stand somewhere in the buffer, each where the offsets say.
The vtable may go on past the fields that are known and may stop before them; a
field that has its default may be left out.

    TableAt b pos entries → fieldOffset b pos (4 + 2 * k) = some (entries.getD k 0)   (fieldOffset_of_tableAt)
-/

namespace FlatBuffers

/-- The signed 32-bit number `n`, in two's complement. -/
def toLESigned (n : Int) : List UInt8 := toLE 4 (n % 2 ^ 32).toNat

/-- A table stands at `pos`: the distance to its vtable, and there the vtable, with its own size,
the size of the object and the places of the fields in it, `0` for a field left out. -/
def TableAt (b : List UInt8) (pos : Int) (entries : List Nat) : Prop :=
  ∃ (vtable : Int) (objectSize : Nat),
    (-2 ^ 31 ≤ pos - vtable ∧ pos - vtable < 2 ^ 31 ∧ At b pos (toLESigned (pos - vtable))) ∧
    (4 + 2 * entries.length < 2 ^ 16 ∧ ∀ e ∈ entries, e < 2 ^ 16) ∧
    At b vtable
      (toLE 2 (4 + 2 * entries.length) ++ (toLE 2 objectSize ++ entries.flatMap (toLE 2)))

/-- A field of a table: a number, a vector of octets, or the table at a position. -/
inductive Field where
  | scalar (width n : Nat)
  | vector (xs : List UInt8)
  | table (q : Int)

/-- The table at `pos` holds the field at place `e`; a zero and an empty vector may be left out. -/
def Field.HeldAt (b : List UInt8) (pos : Int) (e : Nat) : Field → Prop
  | .scalar width n =>
    n < 256 ^ width ∧ ((e = 0 ∧ n = 0) ∨ (e ≠ 0 ∧ At b (pos + e) (toLE width n)))
  | .vector xs =>
    xs.length < 256 ^ 4 ∧ ((e = 0 ∧ xs = []) ∨
      (e ≠ 0 ∧ ∃ d < 256 ^ 4, At b (pos + e) (toLE 4 d) ∧ VectorAt b (pos + e + d) xs))
  | .table q => e ≠ 0 ∧ ∃ d < 256 ^ 4, At b (pos + e) (toLE 4 d) ∧ q = pos + e + d

/-- The table at `pos` holds `fields` in its first slots. -/
def Holds (b : List UInt8) (pos : Int) (fields : List Field) : Prop :=
  ∃ entries, TableAt b pos entries ∧
    ∀ k (f : Field), fields[k]? = some f → f.HeldAt b pos (entries.getD k 0)

/-! ## Lemmas -/

theorem At.readSigned_eq {b : List UInt8} {i n : Int} (h : At b i (toLESigned n))
    (hlo : -2 ^ 31 ≤ n) (hhi : n < 2 ^ 31) : readSigned b i = some n := by
  unfold readSigned toLESigned at *
  rw [h.read_toLE (by omega), Option.map_some, Option.some.injEq]
  split
  · omega
  · omega

theorem At.flatMap_toLE {b : List UInt8} {i : Int} {w : Nat} {ns : List Nat}
    (h : At b i (ns.flatMap (toLE w))) {k n : Nat} (hk : ns[k]? = some n) :
    At b (i + w * k) (toLE w n) := by
  induction ns generalizing i k with
  | nil => cases hk
  | cons m ns ih =>
    rw [List.flatMap_cons] at h
    cases k with
    | zero =>
      obtain rfl : m = n := by simpa using hk
      simpa using h.left
    | succ k =>
      have := ih h.right (by simpa using hk)
      rw [length_toLE] at this
      rwa [show i + w * ((k + 1 : Nat) : Int) = i + w + w * k by push_cast; ring]

/-- Reading a field's place: the distance to the vtable, the vtable's size, then the slot. -/
theorem fieldOffset_of_entry {b : List UInt8} {pos vtable : Int} {objectSize : Nat}
    {entries : List Nat} (hs : readSigned b pos = some (pos - vtable))
    (hsize : 4 + 2 * entries.length < 2 ^ 16)
    (hv : At b vtable
      (toLE 2 (4 + 2 * entries.length) ++ (toLE 2 objectSize ++ entries.flatMap (toLE 2))))
    {k e : Nat} (hget : entries[k]? = some e) (he : e < 2 ^ 16) :
    fieldOffset b pos (4 + 2 * k) = some e := by
  have hk : k < entries.length := (List.getElem?_eq_some_iff.mp hget).1
  have hentry := hv.right.right.flatMap_toLE hget
  rw [length_toLE, length_toLE] at hentry
  have hback : pos - (pos - vtable) = vtable := by ring
  have hpos : vtable + ((4 + 2 * k : Nat) : Int) = vtable + (2 : Nat) + (2 : Nat) + (2 : Nat) * k := by
    push_cast
    ring
  unfold fieldOffset
  simp only [Option.bind_eq_bind]
  rw [hs, Option.bind_some, hback, hv.left.read_toLE (by omega), Option.bind_some,
    if_pos (by omega), hpos, hentry.read_toLE (by omega)]

theorem fieldOffset_of_tableAt {b : List UInt8} {pos : Int} {entries : List Nat}
    (h : TableAt b pos entries) (k : Nat) :
    fieldOffset b pos (4 + 2 * k) = some (entries.getD k 0) := by
  obtain ⟨vtable, objectSize, ⟨hlo, hhi, hsoffset⟩, ⟨hsize, hentries⟩, hv⟩ := h
  have hs := hsoffset.readSigned_eq hlo hhi
  rw [List.getD_eq_getElem?_getD]
  cases hget : entries[k]? with
  | some e => exact fieldOffset_of_entry hs hsize hv hget (hentries e (List.mem_of_getElem? hget))
  | none =>
    -- past the end of the vtable
    have hk := List.getElem?_eq_none_iff.mp hget
    have hback : pos - (pos - vtable) = vtable := by ring
    unfold fieldOffset
    simp only [Option.bind_eq_bind]
    rw [hs, Option.bind_some, hback, hv.left.read_toLE (by omega), Option.bind_some,
      if_neg (by omega)]
    rfl

section
variable {b : List UInt8} {pos : Int} {fields : List Field} (h : Holds b pos fields) {k : Nat}
include h

/-- A number is read at its place, or is the default. -/
theorem Holds.scalar {width n : Nat} (hk : fields[k]? = some (.scalar width n)) :
    ∃ o, fieldOffset b pos (4 + 2 * k) = some o ∧
      ((o = 0 ∧ n = 0) ∨ (o ≠ 0 ∧ read width b (pos + o) = some n)) := by
  obtain ⟨entries, htable, hfields⟩ := h
  obtain ⟨hn, hat⟩ := hfields k _ hk
  refine ⟨_, fieldOffset_of_tableAt htable k, hat.imp id ?_⟩
  rintro ⟨hne, hat⟩
  exact ⟨hne, hat.read_toLE hn⟩

theorem Holds.vector {xs : List UInt8} (hk : fields[k]? = some (.vector xs)) :
    xs.length < 256 ^ 4 ∧ ((fieldOffset b pos (4 + 2 * k) = some 0 ∧ xs = []) ∨
      ∃ q, RefField b pos (4 + 2 * k) q ∧ VectorAt b q xs) := by
  obtain ⟨entries, htable, hfields⟩ := h
  have ho := fieldOffset_of_tableAt htable k
  obtain ⟨hlt, ⟨he, hx⟩ | ⟨hne, d, hd, hat, hvec⟩⟩ := hfields k _ hk
  · exact ⟨hlt, .inl ⟨by rw [ho, he], hx⟩⟩
  · refine ⟨hlt, .inr ⟨_, ⟨_, ho, hne, ?_⟩, hvec⟩⟩
    unfold indirect
    rw [hat.read_toLE hd]
    rfl

theorem Holds.table {q : Int} (hk : fields[k]? = some (.table q)) :
    RefField b pos (4 + 2 * k) q := by
  obtain ⟨entries, htable, hfields⟩ := h
  obtain ⟨hne, d, hd, hat, rfl⟩ := hfields k _ hk
  refine ⟨_, fieldOffset_of_tableAt htable k, hne, ?_⟩
  unfold indirect
  rw [hat.read_toLE hd]
  rfl

end

end FlatBuffers
