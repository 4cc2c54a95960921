import Mathlib.Algebra.Order.Ring.Int
import Mathlib.Tactic.Ring

/-!
# The FlatBuffers format

Reads of little-endian numbers at a position of a buffer, the table operations
built from them, and what it means for a buffer to hold a vector or a table.  A
buffer is written back to front, so what is in it stays in it, further from the
start:

    read w b i = some n → read w (pre ++ b) (pre.length + i) = some n     (read_prepend)
-/

namespace FlatBuffers

/-! ## Numbers -/

def fromLE : List UInt8 → Nat
  | [] => 0
  | x :: xs => x.toNat + 256 * fromLE xs

def toLE : Nat → Nat → List UInt8
  | 0, _ => []
  | w + 1, n => UInt8.ofNat n :: toLE w (n / 256)

@[simp] theorem length_toLE (w n : Nat) : (toLE w n).length = w := by
  induction w generalizing n with
  | zero => rfl
  | succ w ih => simp [toLE, ih]

theorem fromLE_toLE {w n : Nat} (h : n < 256 ^ w) : fromLE (toLE w n) = n := by
  induction w generalizing n with
  | zero => rw [pow_zero] at h; simp only [toLE, fromLE]; omega
  | succ w ih =>
    rw [pow_succ] at h
    have hd : n / 256 < 256 ^ w := by omega
    simp only [toLE, fromLE, ih hd, UInt8.toNat_ofNat']
    omega

theorem toLE_fromLE (xs : List UInt8) : toLE xs.length (fromLE xs) = xs := by
  induction xs with
  | nil => rfl
  | cons x xs ih =>
    have hx := x.toNat_lt
    have hd : (x.toNat + 256 * fromLE xs) / 256 = fromLE xs := by omega
    rw [fromLE, List.length_cons, toLE, hd, ih]
    congr 1
    rw [← UInt8.toNat_inj, UInt8.toNat_ofNat']
    omega

theorem fromLE_lt (xs : List UInt8) : fromLE xs < 256 ^ xs.length := by
  induction xs with
  | nil => simp [fromLE]
  | cons x xs ih =>
    have hx := x.toNat_lt
    rw [fromLE, List.length_cons, pow_succ]
    omega

/-! ## Reads -/

/-- The number of `width` octets at position `i`; `none` when they are not all in the buffer. -/
def read (width : Nat) (b : List UInt8) (i : Int) : Option Nat :=
  if 0 ≤ i ∧ i + width ≤ b.length then some (fromLE ((b.drop i.toNat).take width)) else none

/-- The signed 32-bit number at position `i`. -/
def readSigned (b : List UInt8) (i : Int) : Option Int :=
  (read 4 b i).map fun (n : Nat) => if n < 2 ^ 31 then (n : Int) else n - 2 ^ 32

/-- The octets `xs` stand at position `i`. -/
def At (b : List UInt8) (i : Int) (xs : List UInt8) : Prop :=
  ∃ pre rest, b = pre ++ (xs ++ rest) ∧ i = pre.length

theorem read_bounds {w : Nat} {b : List UInt8} {i : Int} {n : Nat} (h : read w b i = some n) :
    0 ≤ i ∧ i + w ≤ b.length ∧ n < 256 ^ w := by
  unfold read at h
  split at h
  · next hi =>
    obtain rfl := Option.some.inj h
    have hlen : ((b.drop i.toNat).take w).length = w := by
      rw [List.length_take, List.length_drop]; omega
    have := fromLE_lt ((b.drop i.toNat).take w)
    rw [hlen] at this
    exact ⟨hi.1, hi.2, this⟩
  · cases h

theorem read_prepend {w : Nat} {b : List UInt8} {i : Int} {n : Nat} (pre : List UInt8)
    (h : read w b i = some n) : read w (pre ++ b) (pre.length + i) = some n := by
  have hi := read_bounds h
  unfold read at h ⊢
  rw [if_pos ⟨hi.1, hi.2.1⟩] at h
  have hn : ((pre.length : Int) + i).toNat = pre.length + i.toNat := by omega
  rw [if_pos (by rw [List.length_append]; omega), hn, List.drop_append]
  rw [List.drop_of_length_le (by omega), List.nil_append, Nat.add_sub_cancel_left]
  exact h

theorem readSigned_prepend {b : List UInt8} {i n : Int} (pre : List UInt8)
    (h : readSigned b i = some n) : readSigned (pre ++ b) (pre.length + i) = some n := by
  unfold readSigned at h ⊢
  obtain ⟨m, hm, rfl⟩ := Option.map_eq_some_iff.mp h
  rw [read_prepend pre hm]
  rfl

theorem At.prepend {b : List UInt8} {i : Int} {xs : List UInt8} (h : At b i xs)
    (pre : List UInt8) : At (pre ++ b) (pre.length + i) xs := by
  obtain ⟨p, rest, rfl, rfl⟩ := h
  exact ⟨pre ++ p, rest, by simp, by simp⟩

theorem At.left {b : List UInt8} {i : Int} {xs ys : List UInt8} (h : At b i (xs ++ ys)) :
    At b i xs := by
  obtain ⟨p, rest, rfl, rfl⟩ := h
  exact ⟨p, ys ++ rest, by simp, rfl⟩

theorem At.right {b : List UInt8} {i : Int} {xs ys : List UInt8} (h : At b i (xs ++ ys)) :
    At b (i + xs.length) ys := by
  obtain ⟨p, rest, rfl, rfl⟩ := h
  exact ⟨p ++ xs, rest, by simp, by simp⟩

theorem At.read_eq {b : List UInt8} {i : Int} {xs : List UInt8} (h : At b i xs) :
    read xs.length b i = some (fromLE xs) := by
  obtain ⟨p, rest, rfl, rfl⟩ := h
  unfold read
  rw [if_pos (by simp only [List.length_append]; omega), Int.toNat_natCast, List.drop_left,
    List.take_left]

theorem At.read_toLE {b : List UInt8} {i : Int} {w n : Nat} (h : At b i (toLE w n))
    (hn : n < 256 ^ w) : read w b i = some n := by
  have := h.read_eq
  rwa [length_toLE, fromLE_toLE hn] at this

theorem At.read_byte {b : List UInt8} {i : Int} {xs : List UInt8} (h : At b i xs) {j : Nat}
    (hj : j < xs.length) : read 1 b (i + j) = some xs[j].toNat := by
  have hs : xs = xs.take j ++ ([xs[j]] ++ xs.drop (j + 1)) := by
    rw [List.singleton_append, ← List.drop_eq_getElem_cons hj, List.take_append_drop]
  rw [hs] at h
  have := h.right.left.read_eq
  rwa [List.length_take, Nat.min_eq_left hj.le, List.length_singleton, fromLE, fromLE,
    Nat.mul_zero, Nat.add_zero] at this

theorem At.append {b : List UInt8} {i : Int} {xs ys : List UInt8} (hx : At b i xs)
    (hy : At b (i + xs.length) ys) : At b i (xs ++ ys) := by
  obtain ⟨p, rest, hb, rfl⟩ := hx
  obtain ⟨p', rest', hb', hi⟩ := hy
  have hlen : (p ++ xs).length = p'.length := by rw [List.length_append]; omega
  have happ : (p ++ xs) ++ rest = p' ++ (ys ++ rest') := by rw [← hb', hb, List.append_assoc]
  obtain ⟨-, rfl⟩ := List.append_inj happ hlen
  exact ⟨p, rest', by rw [hb, List.append_assoc], rfl⟩

theorem at_of_take {b : List UInt8} {n w : Nat} {xs : List UInt8} (hn : n ≤ b.length)
    (h : (b.drop n).take w = xs) : At b n xs := by
  refine ⟨b.take n, (b.drop n).drop w, ?_, by simp [hn]⟩
  rw [← h, List.take_append_drop, List.take_append_drop]

/-- What a read finds stands there. -/
theorem at_of_read {w : Nat} {b : List UInt8} {i : Int} {n : Nat} (h : read w b i = some n) :
    At b i (toLE w n) := by
  have hi := read_bounds h
  unfold read at h
  rw [if_pos ⟨hi.1, hi.2.1⟩] at h
  obtain rfl := Option.some.inj h
  have hlen : ((b.drop i.toNat).take w).length = w := by
    rw [List.length_take, List.length_drop]; omega
  have hle := toLE_fromLE ((b.drop i.toNat).take w)
  rw [hlen] at hle
  have hat := at_of_take (show i.toNat ≤ b.length by omega) hle.symm
  rwa [Int.toNat_of_nonneg hi.1] at hat

theorem at_of_read_bytes {b : List UInt8} {i : Int} {xs : List UInt8} (h0 : 0 ≤ i)
    (hb : i ≤ b.length) (h : ∀ j (hj : j < xs.length), read 1 b (i + j) = some xs[j].toNat) :
    At b i xs := by
  induction xs generalizing i with
  | nil =>
    refine ⟨b.take i.toNat, b.drop i.toNat, ?_, ?_⟩
    · rw [List.nil_append, List.take_append_drop]
    · rw [List.length_take]; omega
  | cons x xs ih =>
    have hx := h 0 (by simp)
    simp only [Int.natCast_zero, add_zero, List.getElem_cons_zero] at hx
    have hxb := read_bounds hx
    have hat := at_of_read hx
    simp only [toLE, UInt8.ofNat_toNat] at hat
    refine hat.append (ih ?_ ?_ fun j hj => ?_)
    · simp; omega
    · simp; omega
    · have := h (j + 1) (by simpa using hj)
      rw [Int.natCast_add, Int.natCast_one] at this
      rw [List.length_singleton, show i + ((1 : Nat) : Int) + (j : Int) = i + (j + 1) by push_cast; ring]
      simpa using this

/-! ## Tables and vectors -/

/-- `Table.Offset`: the offset of a field from the start of the table, `0` when the vtable does
not have it. -/
def fieldOffset (b : List UInt8) (pos : Int) (vtableOffset : Nat) : Option Nat := do
  let soffset ← readSigned b pos
  let vtableEnd ← read 2 b (pos - soffset)
  if vtableOffset < vtableEnd then read 2 b (pos - soffset + vtableOffset) else some 0

/-- Follow the offset stored at position `i`. -/
def indirect (b : List UInt8) (i : Int) : Option Int := (read 4 b i).map fun (n : Nat) => i + n

/-- The vector `xs` of octets, after its length, stands at position `i`. -/
def VectorAt (b : List UInt8) (i : Int) (xs : List UInt8) : Prop := At b i (toLE 4 xs.length ++ xs)

/-- The field of a table is an octet. -/
def OctetField (b : List UInt8) (pos : Int) (vtableOffset v : Nat) : Prop :=
  ∃ o, fieldOffset b pos vtableOffset = some o ∧ o ≠ 0 ∧ read 1 b (pos + o) = some v

/-- The field of a table refers to position `q`. -/
def RefField (b : List UInt8) (pos : Int) (vtableOffset : Nat) (q : Int) : Prop :=
  ∃ o, fieldOffset b pos vtableOffset = some o ∧ o ≠ 0 ∧ indirect b (pos + o) = some q

theorem fieldOffset_prepend {b : List UInt8} {pos : Int} {vtableOffset o : Nat}
    (pre : List UInt8) (h : fieldOffset b pos vtableOffset = some o) :
    fieldOffset (pre ++ b) (pre.length + pos) vtableOffset = some o := by
  unfold fieldOffset at h ⊢
  simp only [Option.bind_eq_bind, Option.bind_eq_some_iff] at h ⊢
  obtain ⟨soffset, hs, vtableEnd, he, h⟩ := h
  have hp : (pre.length : Int) + pos - soffset = pre.length + (pos - soffset) := by ring
  refine ⟨soffset, readSigned_prepend pre hs, vtableEnd, by rw [hp]; exact read_prepend pre he, ?_⟩
  split at h
  · next hlt => rw [if_pos hlt, hp, add_assoc]; exact read_prepend pre h
  · next hlt => rw [if_neg hlt]; exact h

theorem indirect_prepend {b : List UInt8} {i q : Int} (pre : List UInt8)
    (h : indirect b i = some q) : indirect (pre ++ b) (pre.length + i) = some (pre.length + q) := by
  unfold indirect at h ⊢
  obtain ⟨n, hn, rfl⟩ := Option.map_eq_some_iff.mp h
  rw [read_prepend pre hn, Option.map_some, add_assoc]

theorem OctetField.prepend {b : List UInt8} {pos : Int} {vtableOffset v : Nat}
    (h : OctetField b pos vtableOffset v) (pre : List UInt8) :
    OctetField (pre ++ b) (pre.length + pos) vtableOffset v := by
  obtain ⟨o, ho, hne, hv⟩ := h
  exact ⟨o, fieldOffset_prepend pre ho, hne, by rw [add_assoc]; exact read_prepend pre hv⟩

theorem RefField.prepend {b : List UInt8} {pos : Int} {vtableOffset : Nat} {q : Int}
    (h : RefField b pos vtableOffset q) (pre : List UInt8) :
    RefField (pre ++ b) (pre.length + pos) vtableOffset (pre.length + q) := by
  obtain ⟨o, ho, hne, hq⟩ := h
  exact ⟨o, fieldOffset_prepend pre ho, hne, by rw [add_assoc]; exact indirect_prepend pre hq⟩

/-! ## What follows does not matter -/

theorem At.extend {b : List UInt8} {i : Int} {xs : List UInt8} (h : At b i xs)
    (rest : List UInt8) : At (b ++ rest) i xs := by
  obtain ⟨p, rest', rfl, rfl⟩ := h
  exact ⟨p, rest' ++ rest, by simp, rfl⟩

theorem read_extend {w : Nat} {b : List UInt8} {i : Int} {n : Nat} (rest : List UInt8)
    (h : read w b i = some n) : read w (b ++ rest) i = some n :=
  ((at_of_read h).extend rest).read_toLE (read_bounds h).2.2

theorem readSigned_extend {b : List UInt8} {i n : Int} (rest : List UInt8)
    (h : readSigned b i = some n) : readSigned (b ++ rest) i = some n := by
  unfold readSigned at h ⊢
  obtain ⟨m, hm, rfl⟩ := Option.map_eq_some_iff.mp h
  rw [read_extend rest hm]
  rfl

theorem fieldOffset_extend {b : List UInt8} {pos : Int} {vtableOffset o : Nat}
    (rest : List UInt8) (h : fieldOffset b pos vtableOffset = some o) :
    fieldOffset (b ++ rest) pos vtableOffset = some o := by
  unfold fieldOffset at h ⊢
  simp only [Option.bind_eq_bind, Option.bind_eq_some_iff] at h ⊢
  obtain ⟨soffset, hs, vtableEnd, he, h⟩ := h
  refine ⟨soffset, readSigned_extend rest hs, vtableEnd, read_extend rest he, ?_⟩
  split at h
  · next hlt => rw [if_pos hlt]; exact read_extend rest h
  · next hlt => rw [if_neg hlt]; exact h

theorem RefField.extend {b : List UInt8} {pos : Int} {vtableOffset : Nat} {q : Int}
    (h : RefField b pos vtableOffset q) (rest : List UInt8) :
    RefField (b ++ rest) pos vtableOffset q := by
  obtain ⟨o, ho, hne, hq⟩ := h
  refine ⟨o, fieldOffset_extend rest ho, hne, ?_⟩
  unfold indirect at hq ⊢
  obtain ⟨n, hn, rfl⟩ := Option.map_eq_some_iff.mp hq
  rw [read_extend rest hn]
  rfl

end FlatBuffers
