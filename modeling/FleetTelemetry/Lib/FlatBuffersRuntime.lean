import FleetTelemetry.Lib.FlatBuffersLayout
import Mathlib.Data.List.DropRight
import Mathlib.Data.List.Perm.Subperm

/-!
# The FlatBuffers runtime

`Runtime` is the interface of the runtime library: `encode.Get`, the `Table`
methods and `Builder`; `none` stands for a raised exception.  `Reads` is what its
documentation promises of the reads: they find what stands in the buffer and raise
out of bounds.  `Documented` adds the builder: byte vectors, tables and `Finish`,
each as the format has it unless the buffer would pass its limit of 2 GiB.
`reference` is a runtime that keeps the promise (`reference_documented`).
-/

namespace FlatBuffers

/-! ## Interface -/

/-- `nested` builders raise; `written b` is `Bytes[Head():]`, `none` while an object is open.  An
offset counts from the end of the buffer. -/
structure Runtime where
  getUint8 : List UInt8 → Int → Option Nat
  getUint32 : List UInt8 → Int → Option Nat
  offset : List UInt8 → Int → Nat → Option Nat
  vector : List UInt8 → Int → Nat → Option Int
  vectorLen : List UInt8 → Int → Nat → Option Nat
  union : List UInt8 → Int → Nat → Option Int
  Builder : Type
  new : Builder
  createByteVector : Builder → List UInt8 → Option (Builder × Nat)
  startObject : Builder → Nat → Option Builder
  prependUOffsetTRelativeSlot : Builder → Nat → Nat → Nat → Option Builder
  prependUint8Slot : Builder → Nat → Nat → Nat → Option Builder
  endObject : Builder → Option (Builder × Nat)
  finish : Builder → Nat → Option Builder
  output : Builder → Option (List UInt8)
  written : Builder → Option (List UInt8)

/-- What is put in a slot: an octet, or the offset of a vector or table written before. -/
inductive Slot where
  | octet (v : Nat)
  | ref (off : Nat)

namespace Runtime

def put (rt : Runtime) (b : rt.Builder) : Nat × Slot → Option rt.Builder
  | (slot, .octet v) => rt.prependUint8Slot b slot v 0
  | (slot, .ref off) => rt.prependUOffsetTRelativeSlot b slot off 0

def putAll (rt : Runtime) (b : rt.Builder) : List (Nat × Slot) → Option rt.Builder
  | [] => some b
  | s :: ss => (rt.put b s).bind fun b => rt.putAll b ss

/-- An object from `StartObject` to `EndObject`. -/
def object (rt : Runtime) (b : rt.Builder) (numFields : Nat) (slots : List (Nat × Slot)) :
    Option (rt.Builder × Nat) :=
  (rt.startObject b numFields).bind fun b => (rt.putAll b slots).bind rt.endObject

end Runtime

/-- A slot of the table at `pos` holds what was put there. -/
def Slot.HeldBy (b : List UInt8) (pos : Int) (slot : Nat) : Slot → Prop
  | .octet v => OctetField b pos (4 + 2 * slot) v
  | .ref off => RefField b pos (4 + 2 * slot) (b.length - off)

/-- What may be put: an octet that is not the default, the offset of something written. -/
def Slot.Fits (w : List UInt8) : Slot → Prop
  | .octet v => 0 < v ∧ v < 256
  | .ref off => 0 < off ∧ off ≤ w.length

/-- The slots of one table: each at most once, none outside the table. -/
def SlotsFit (w : List UInt8) (numFields : Nat) (slots : List (Nat × Slot)) : Prop :=
  numFields ≤ 1000 ∧ (slots.map Prod.fst).Nodup ∧ ∀ s ∈ slots, s.1 < numFields ∧ s.2.Fits w

/-- `MAX_BUFFER_SIZE` -/
def maxBufferSize : Nat := 2 ^ 31

/-- `x` reads of `b` what the format has there, `y`; it may raise where 32 bits do not reach. -/
def ReadsAs {α : Type} (b : List UInt8) (x y : Option α) : Prop :=
  (∀ a, x = some a → y = some a) ∧ (b.length ≤ 2 ^ 32 → x = y)

structure Runtime.Reads (rt : Runtime) : Prop where
  getUint8 : ∀ b i, ReadsAs b (rt.getUint8 b i) (read 1 b i)
  getUint32 : ∀ b i, ReadsAs b (rt.getUint32 b i) (read 4 b i)
  offset : ∀ b pos vo, ReadsAs b (rt.offset b pos vo) (fieldOffset b pos vo)
  vector : ∀ b pos o, ReadsAs b (rt.vector b pos o) ((indirect b (pos + o)).map (· + 4))
  vectorLen : ∀ b pos o, ReadsAs b (rt.vectorLen b pos o) ((indirect b (pos + o)).bind (read 4 b))
  union : ∀ b pos o, ReadsAs b (rt.union b pos o) (indirect b (pos + o))

/-- What a builder returns is `P`; it does return when `size` octets are within the limit. -/
def Builds {α : Type} (size : Nat) (x : Option α) (P : α → Prop) : Prop :=
  (size ≤ maxBufferSize → ∃ a, x = some a) ∧ ∀ a, x = some a → P a

structure Runtime.Documented (rt : Runtime) : Prop extends rt.Reads where
  new : rt.written rt.new = some []
  createByteVector : ∀ b w x, rt.written b = some w →
    Builds (w.length + x.length + 8) (rt.createByteVector b x) fun r =>
      ∃ pad, rt.written r.1 = some (toLE 4 x.length ++ x ++ pad ++ w) ∧ pad.length < 4 ∧
        r.2 = 4 + x.length + pad.length + w.length ∧ r.2 ≤ maxBufferSize
  object : ∀ b w n slots, rt.written b = some w → w.length ≤ maxBufferSize → SlotsFit w n slots →
    Builds (w.length + 8 * slots.length + 2 * n + 16) (rt.object b n slots) fun r =>
      ∃ ext, rt.written r.1 = some (ext ++ w) ∧ ext.length ≤ 8 * slots.length + 2 * n + 16 ∧
        (ext ++ w).length ≤ maxBufferSize ∧ 0 < r.2 ∧ r.2 ≤ (ext ++ w).length ∧
        ∀ s ∈ slots, s.2.HeldBy (ext ++ w) ((ext ++ w).length - r.2) s.1
  finish : ∀ b w root, rt.written b = some w → w.length ≤ maxBufferSize → root ≤ w.length →
    Builds (w.length + 8) (rt.finish b root) fun b' =>
      ∃ pad, rt.output b' = some (toLE 4 (4 + pad.length + (w.length - root)) ++ pad ++ w) ∧
        pad.length < 4

/-! ## A runtime -/

/-- `object` is `objectEnd` and `current_vtable` of the open object. -/
structure Builder where
  bytes : List UInt8
  object : Option (Nat × List Nat)

namespace Builder

/-- `Prep`: zeros up to a multiple of `size`, once `additional` more octets are written. -/
def prep (b : Builder) (size additional : Nat) : Builder :=
  { b with
    bytes := List.replicate ((size - (b.bytes.length + additional) % size) % size) 0 ++ b.bytes }

/-- The buffer does not grow past its limit. -/
def fits (b : Builder) : Option Builder := if b.bytes.length ≤ maxBufferSize then some b else none

def prepend (b : Builder) (xs : List UInt8) : Builder := { b with bytes := xs ++ b.bytes }

def createByteVector (b : Builder) (x : List UInt8) : Option (Builder × Nat) :=
  match b.object with
  | some _ => none
  | none =>
    (((b.prep 4 x.length).prepend x).prepend (toLE 4 x.length)).fits.map fun b =>
      (b, b.bytes.length)

def startObject (b : Builder) (numFields : Nat) : Option Builder :=
  match b.object with
  | some _ => none
  | none => some { b with object := some (b.bytes.length, List.replicate numFields 0) }

/-- `Slot`: the field just written is that of `slot`. -/
def setSlot (b : Builder) (slot : Nat) : Option Builder :=
  match b.object with
  | none => none
  | some (objectEnd, vtable) =>
    if slot < vtable.length then
      some { b with object := some (objectEnd, vtable.set slot b.bytes.length) }
    else none

def prependUOffsetTRelativeSlot (b : Builder) (slot off default : Nat) : Option Builder :=
  if off = default then some b
  else
    let b := b.prep 4 0
    if off ≤ b.bytes.length then
      (b.prepend (toLE 4 (b.bytes.length - off + 4))).fits.bind (·.setSlot slot)
    else none

def prependUint8Slot (b : Builder) (slot v default : Nat) : Option Builder :=
  if v = default then some b
  else (b.prepend (toLE 1 v)).fits.bind (·.setSlot slot)

/-- The entries of a vtable: where the fields are in the object, trailing absent ones left out. -/
def vtableEntries (objectOffset : Nat) (vtable : List Nat) : List Nat :=
  (vtable.rdropWhile (· = 0)).map fun elem => if elem = 0 then 0 else objectOffset - elem

/-- The vtable is written right before its object. -/
def endObject (b : Builder) : Option (Builder × Nat) :=
  match b.object with
  | none => none
  | some (objectEnd, vtable) =>
    let b := b.prep 4 0
    let objectOffset := b.bytes.length + 4
    let entries := vtableEntries objectOffset vtable
    let vBytes := 2 * (entries.length + 2)
    let vtableBytes :=
      toLE 2 vBytes ++ (toLE 2 (objectOffset - objectEnd) ++ entries.flatMap (toLE 2))
    (({ b with object := none }.prepend (toLE 4 vBytes)).prepend vtableBytes).fits.map
      fun b => (b, objectOffset)

def finish (b : Builder) (root : Nat) : Option Builder :=
  match b.object with
  | some _ => none
  | none =>
    let b := b.prep 4 4
    if root ≤ b.bytes.length then (b.prepend (toLE 4 (b.bytes.length - root + 4))).fits else none

def written (b : Builder) : Option (List UInt8) :=
  match b.object with
  | some _ => none
  | none => some b.bytes

end Builder

def reference : Runtime where
  getUint8 := read 1
  getUint32 := read 4
  offset := fieldOffset
  vector b pos o := (indirect b (pos + o)).map (· + 4)
  vectorLen b pos o := (indirect b (pos + o)).bind (read 4 b)
  union b pos o := indirect b (pos + o)
  Builder := Builder
  new := ⟨[], none⟩
  createByteVector := Builder.createByteVector
  startObject := Builder.startObject
  prependUOffsetTRelativeSlot := Builder.prependUOffsetTRelativeSlot
  prependUint8Slot := Builder.prependUint8Slot
  endObject := Builder.endObject
  finish := Builder.finish
  output := Builder.written
  written := Builder.written

/-! ## Lemmas -/

theorem Builds.bind {α β : Type} {size size' : Nat} {x : Option α} {f : α → Option β}
    {P : α → Prop} {Q : β → Prop} (hx : Builds size x P) (hsize : size ≤ size')
    (hf : ∀ a, P a → Builds size' (f a) Q) : Builds size' (x.bind f) Q := by
  constructor
  · intro hmax
    obtain ⟨a, ha⟩ := hx.1 (by omega)
    obtain ⟨c, hc⟩ := (hf a (hx.2 a ha)).1 hmax
    exact ⟨c, by rw [ha, Option.bind_some, hc]⟩
  · intro c hc
    obtain ⟨a, ha, hc⟩ := Option.bind_eq_some_iff.mp hc
    exact (hf a (hx.2 a ha)).2 c hc

theorem Builds.mono {α : Type} {size : Nat} {x : Option α} {P Q : α → Prop} (hx : Builds size x P)
    (h : ∀ a, P a → Q a) : Builds size x Q :=
  ⟨hx.1, fun a ha => h a (hx.2 a ha)⟩

theorem Builds.map {α β : Type} {size : Nat} {x : Option α} {f : α → β} {P : β → Prop}
    (hx : Builds size x fun a => P (f a)) : Builds size (x.map f) P := by
  constructor
  · intro hmax
    obtain ⟨a, ha⟩ := hx.1 hmax
    exact ⟨f a, by rw [ha, Option.map_some]⟩
  · intro c hc
    obtain ⟨a, ha, rfl⟩ := Option.map_eq_some_iff.mp hc
    exact hx.2 a ha

theorem prep_eq (b : Builder) (additional : Nat) :
    ∃ pad, b.prep 4 additional = b.prepend pad ∧ pad.length < 4 :=
  ⟨_, rfl, by rw [List.length_replicate]; omega⟩

theorem builds_fits {b : Builder} {size : Nat} {P : Builder → Prop} (hsize : b.bytes.length ≤ size)
    (hP : b.bytes.length ≤ maxBufferSize → P b) : Builds size b.fits P := by
  unfold Builder.fits
  constructor
  · intro hmax
    rw [if_pos (by omega)]
    exact ⟨_, rfl⟩
  · intro a ha
    split at ha
    · next hb =>
      obtain rfl := Option.some.inj ha
      exact hP hb
    · cases ha

theorem setSlot_bytes {b b' : Builder} {slot : Nat} (h : b.setSlot slot = some b') :
    b'.bytes = b.bytes := by
  unfold Builder.setSlot at h
  split at h
  · cases h
  · split at h
    · obtain rfl := Option.some.inj h
      rfl
    · cases h

theorem fits_setSlot {b b' : Builder} {slot : Nat} (h : b.setSlot slot = some b') :
    b.fits.bind (·.setSlot slot) = b'.fits := by
  unfold Builder.fits
  rw [setSlot_bytes h]
  split
  · exact h
  · rfl

/-- What was put in a slot stands at position `i`. -/
def Slot.StandsAt (b : List UInt8) (i : Int) : Slot → Prop
  | .octet v => read 1 b i = some v
  | .ref off => indirect b i = some ((b.length : Int) - off)

theorem Slot.StandsAt.prepend {b : List UInt8} {o : Nat} {s : Slot}
    (h : s.StandsAt b (b.length - o)) (pre : List UInt8) :
    s.StandsAt (pre ++ b) ((pre ++ b).length - o) := by
  have hi : ((pre ++ b).length : Int) - o = pre.length + (b.length - o) := by
    rw [List.length_append]; omega
  rw [hi]
  cases s with
  | octet v => exact read_prepend pre h
  | ref off =>
    have := indirect_prepend pre h
    show indirect _ _ = _
    rw [this, List.length_append]
    congr 1
    omega

/-- An object open over `w`, with the slots `slots` put so far. -/
structure Open (w : List UInt8) (n : Nat) (slots : List (Nat × Slot)) (b : Builder) : Prop where
  bytes : ∃ fields, b.bytes = fields ++ w ∧ fields.length ≤ 8 * slots.length
  object : ∃ vtable, b.object = some (w.length, vtable) ∧ vtable.length = n ∧
    ∀ s ∈ slots, ∃ o, vtable[s.1]? = some o ∧ w.length < o ∧ o ≤ b.bytes.length ∧
      s.2.StandsAt b.bytes (b.bytes.length - o)

/-- Writing a field in front of an open object and setting its slot. -/
theorem open_setSlot {w : List UInt8} {n : Nat} {slots : List (Nat × Slot)} {b : Builder}
    (hb : Open w n slots b) {slot : Nat} {s : Slot} (hslot : slot < n)
    (hnew : slot ∉ slots.map Prod.fst) (front : List UInt8) (hf : 0 < front.length)
    (hf8 : front.length ≤ 8)
    (hs : s.StandsAt (front ++ b.bytes) ((front ++ b.bytes).length - (front ++ b.bytes).length)) :
    ∃ b', (b.prepend front).setSlot slot = some b' ∧ Open w n ((slot, s) :: slots) b' := by
  obtain ⟨⟨fields, hfields, hlen⟩, vtable, hobj, hn, hslots⟩ := hb
  refine ⟨⟨front ++ b.bytes, some (w.length, vtable.set slot (front ++ b.bytes).length)⟩, ?_, ?_, ?_⟩
  · simp [Builder.setSlot, Builder.prepend, hobj, hn, hslot]
  · refine ⟨front ++ fields, by simp [hfields], ?_⟩
    rw [List.length_append, List.length_cons]
    omega
  · refine ⟨_, rfl, by rw [List.length_set, hn], ?_⟩
    intro p hp
    rcases List.mem_cons.mp hp with rfl | hp
    · refine ⟨(front ++ b.bytes).length, ?_, ?_, le_rfl, hs⟩
      · simp [hn, hslot]
      · simp only [hfields, List.length_append]; omega
    · obtain ⟨o, ho, hwo, hle, hst⟩ := hslots p hp
      have hne : slot ≠ p.1 := fun h => hnew (List.mem_map.mpr ⟨p, hp, h.symm⟩)
      refine ⟨o, ?_, hwo, ?_, hst.prepend front⟩
      · rw [List.getElem?_set_ne hne, ho]
      · simp only [List.length_append]; omega

theorem open_put {w : List UInt8} {n : Nat} {slots : List (Nat × Slot)} {b : Builder}
    (hb : Open w n slots b) {s : Nat × Slot} (hslot : s.1 < n) (hnew : s.1 ∉ slots.map Prod.fst)
    (hfit : s.2.Fits w) (hw : w.length ≤ maxBufferSize) (hslots : slots.length ≤ 1000) :
    ∃ b', reference.put b s = b'.fits ∧ Open w n (s :: slots) b' := by
  obtain ⟨slot, s⟩ := s
  obtain ⟨fields, hfields, hlen⟩ := hb.bytes
  have hbl : b.bytes.length ≤ w.length + 8 * slots.length := by
    rw [hfields, List.length_append]; omega
  cases s with
  | octet v =>
    obtain ⟨hv, hv256⟩ := hfit
    have hst : Slot.StandsAt (toLE 1 v ++ b.bytes)
        ((toLE 1 v ++ b.bytes).length - (toLE 1 v ++ b.bytes).length) (.octet v) := by
      rw [sub_self]
      exact At.read_toLE ⟨[], b.bytes, rfl, rfl⟩ (by omega)
    obtain ⟨b', hb', ho⟩ := open_setSlot hb hslot hnew (toLE 1 v) (by simp) (by simp) hst
    refine ⟨b', ?_, ho⟩
    show Builder.prependUint8Slot b slot v 0 = b'.fits
    unfold Builder.prependUint8Slot
    rw [if_neg (by omega), fits_setSlot hb']
  | ref off =>
    obtain ⟨hoff, hoffw⟩ := hfit
    obtain ⟨pad, hprep, hpad4⟩ := prep_eq b 0
    have hle : off ≤ (pad ++ b.bytes).length := by
      rw [hfields]; simp only [List.length_append]; omega
    set d := (pad ++ b.bytes).length - off + 4 with hd
    have hd32 : d < 256 ^ 4 := by
      simp only [List.length_append] at hd
      unfold maxBufferSize at hw
      omega
    set front := toLE 4 d ++ pad with hfront
    have happ : front ++ b.bytes = toLE 4 d ++ (pad ++ b.bytes) := by simp [hfront]
    have hst : Slot.StandsAt (front ++ b.bytes)
        ((front ++ b.bytes).length - (front ++ b.bytes).length) (.ref off) := by
      rw [sub_self]
      show indirect _ _ = _
      unfold indirect
      have hat : At (front ++ b.bytes) 0 (toLE 4 d) := ⟨[], pad ++ b.bytes, happ, rfl⟩
      rw [hat.read_toLE hd32, Option.map_some, Option.some.injEq, happ, List.length_append,
        length_toLE]
      omega
    have hfl : front.length = 4 + pad.length := by simp [hfront]
    obtain ⟨b', hb', ho⟩ := open_setSlot hb hslot hnew front (by omega) (by omega) hst
    refine ⟨b', ?_, ho⟩
    show Builder.prependUOffsetTRelativeSlot b slot off 0 = b'.fits
    unfold Builder.prependUOffsetTRelativeSlot
    rw [if_neg (by omega)]
    simp only [hprep]
    rw [if_pos (by exact hle)]
    have hpp : (b.prepend pad).prepend (toLE 4 ((b.prepend pad).bytes.length - off + 4)) =
        b.prepend front := by
      simp only [Builder.prepend, happ, ← hd]
    rw [hpp, fits_setSlot hb']

theorem open_putAll {w : List UInt8} {n : Nat} (hw : w.length ≤ maxBufferSize)
    (ss : List (Nat × Slot)) :
    ∀ {slots : List (Nat × Slot)} {b : Builder}, Open w n slots b →
      (∀ s ∈ ss, s.1 < n ∧ s.2.Fits w) → ((ss ++ slots).map Prod.fst).Nodup →
      slots.length + ss.length ≤ 1000 →
      Builds (w.length + 8 * (slots.length + ss.length)) (reference.putAll b ss)
        (Open w n (ss.reverse ++ slots)) := by
  induction ss with
  | nil =>
    intro slots b hb _ _ _
    refine ⟨fun _ => ⟨b, rfl⟩, fun b' hb' => ?_⟩
    obtain rfl := Option.some.inj hb'
    exact hb
  | cons s ss ih =>
    intro slots b hb hfit hnd hsize
    rw [List.cons_append, List.map_cons, List.nodup_cons, List.map_append, List.mem_append,
      not_or] at hnd
    rw [List.length_cons] at hsize
    have hs := hfit s List.mem_cons_self
    obtain ⟨b₁, hput, hb₁⟩ := open_put hb hs.1 hnd.1.2 hs.2 hw (by omega)
    have hnd' : ((ss ++ s :: slots).map Prod.fst).Nodup := by
      rw [List.perm_middle.map _ |>.nodup_iff, List.map_cons, List.nodup_cons, List.map_append,
        List.mem_append, not_or]
      exact ⟨hnd.1, hnd.2⟩
    have hrest := ih hb₁ (fun t ht => hfit t (List.mem_cons_of_mem _ ht)) hnd'
      (by rw [List.length_cons]; omega)
    have hone : Builds (w.length + 8 * (slots.length + 1)) (reference.put b s) (· = b₁) := by
      obtain ⟨fields, hfields, hlen⟩ := hb₁.bytes
      rw [List.length_cons] at hlen
      rw [hput]
      exact builds_fits (by rw [hfields, List.length_append]; omega) fun _ => rfl
    refine Builds.bind hone (by rw [List.length_cons]; omega) ?_
    rintro b' rfl
    rw [List.reverse_cons, List.append_assoc, List.singleton_append, List.length_cons,
      show slots.length + (ss.length + 1) = (s :: slots).length + ss.length by
        rw [List.length_cons]; omega]
    exact hrest

theorem getElem?_rdropWhile {α : Type*} (p : α → Bool) {xs : List α} {k : Nat} {x : α}
    (h : xs[k]? = some x) (hx : p x = false) : (xs.rdropWhile p)[k]? = some x := by
  have hap : xs.rdropWhile p ++ xs.rtakeWhile p = xs := List.rdropWhile_append_rtakeWhile
  rw [← hap] at h
  by_cases hk : k < (xs.rdropWhile p).length
  · rwa [List.getElem?_append_left hk] at h
  · rw [List.getElem?_append_right (by omega)] at h
    have := List.mem_rtakeWhile_imp (List.mem_of_getElem? h)
    rw [hx] at this
    cases this

theorem Builder.vtableEntries_get {vtable : List Nat} {slot o : Nat} (objectOffset : Nat)
    (h : vtable[slot]? = some o) (ho : 0 < o) :
    (Builder.vtableEntries objectOffset vtable)[slot]? = some (objectOffset - o) := by
  unfold Builder.vtableEntries
  rw [List.getElem?_map, getElem?_rdropWhile _ h (by simp; omega), Option.map_some,
    if_neg (by omega)]

theorem Builder.vtableEntries_length_le (objectOffset : Nat) (vtable : List Nat) :
    (Builder.vtableEntries objectOffset vtable).length ≤ vtable.length := by
  unfold Builder.vtableEntries
  rw [List.length_map]
  exact (List.rdropWhile_prefix _ _).length_le

/-- Reading a table back: its vtable, then the offset to it, then its fields. -/
theorem fieldOffset_of_layout {entries : List Nat} {objectSize : Nat} {body : List UInt8}
    (hsmall : 2 * (entries.length + 2) < 2 ^ 16) {slot e : Nat} (hget : entries[slot]? = some e)
    (he : e < 2 ^ 16) :
    fieldOffset
        (toLE 2 (2 * (entries.length + 2)) ++
          (toLE 2 objectSize ++ entries.flatMap (toLE 2)) ++
          (toLE 4 (2 * (entries.length + 2)) ++ body))
        (2 * (entries.length + 2) : Nat) (4 + 2 * slot) = some e := by
  set vBytes := 2 * (entries.length + 2) with hv
  set b := toLE 2 vBytes ++ (toLE 2 objectSize ++ entries.flatMap (toLE 2)) ++
    (toLE 4 vBytes ++ body) with hb
  have hflat : (entries.flatMap (toLE 2)).length = 2 * entries.length := by
    rw [List.length_flatMap]
    simp [Nat.mul_comm]
  have hvB : 4 + 2 * entries.length = vBytes := by omega
  have hvt : At b 0 (toLE 2 vBytes ++ (toLE 2 objectSize ++ entries.flatMap (toLE 2))) :=
    ⟨[], toLE 4 vBytes ++ body, by simp [hb], rfl⟩
  have hso : At b vBytes (toLE 4 vBytes) := by
    refine ⟨_, body, hb, ?_⟩
    simp only [List.length_append, length_toLE, hflat]
    omega
  have hs : readSigned b vBytes = some ((vBytes : Nat) - 0 : Int) := by
    unfold readSigned
    rw [hso.read_toLE (by omega), Option.map_some, if_pos (by omega), sub_zero]
  exact fieldOffset_of_entry hs (by omega) (by rw [hvB]; exact hvt) hget he

/-- An object that was written over `w`. -/
def Object (w : List UInt8) (n : Nat) (slots : List (Nat × Slot)) (r : Builder × Nat) : Prop :=
  ∃ ext, r.1.written = some (ext ++ w) ∧ ext.length ≤ 8 * slots.length + 2 * n + 16 ∧
    (ext ++ w).length ≤ maxBufferSize ∧ 0 < r.2 ∧ r.2 ≤ (ext ++ w).length ∧
    ∀ s ∈ slots, s.2.HeldBy (ext ++ w) ((ext ++ w).length - r.2) s.1

theorem endObject_spec {w : List UInt8} {n : Nat} {slots : List (Nat × Slot)} {b : Builder}
    (hb : Open w n slots b) (hn : n ≤ 1000) (hslots : slots.length ≤ n) :
    Builds (w.length + 8 * slots.length + 2 * n + 16) b.endObject (Object w n slots) := by
  obtain ⟨⟨fields, hfields, hlen⟩, vtable, hobj, hvn, hst⟩ := hb
  obtain ⟨pad, hprep, hpad⟩ := prep_eq b 0
  set off := (pad ++ b.bytes).length + 4 with hoff
  set entries := Builder.vtableEntries off vtable with hentries
  set vBytes := 2 * (entries.length + 2) with hvB
  have hel : entries.length ≤ n := hvn ▸ Builder.vtableEntries_length_le off vtable
  have hflat : (entries.flatMap (toLE 2)).length = 2 * entries.length := by
    rw [List.length_flatMap]
    simp [Nat.mul_comm]
  set vtableBytes := toLE 2 vBytes ++ (toLE 2 (off - w.length) ++ entries.flatMap (toLE 2))
    with hvtb
  have hvl : vtableBytes.length = vBytes := by
    simp only [hvtb, List.length_append, length_toLE, hflat, hvB]
    omega
  set ext := vtableBytes ++ (toLE 4 vBytes ++ (pad ++ fields)) with hext
  have htot : ext ++ w = vtableBytes ++ (toLE 4 vBytes ++ (pad ++ b.bytes)) := by
    simp [hext, hfields]
  have htl : (ext ++ w).length = vBytes + off := by
    rw [htot, List.length_append, hvl, List.length_append, length_toLE, hoff]
    omega
  have hbl : b.bytes.length = fields.length + w.length := by rw [hfields, List.length_append]
  have hol : off = pad.length + b.bytes.length + 4 := by rw [hoff, List.length_append]
  have hextl : ext.length + w.length = vBytes + off := List.length_append.symm.trans htl
  have hend : b.endObject = (Builder.fits ⟨ext ++ w, none⟩).map fun b => (b, off) := by
    unfold Builder.endObject
    rw [hobj]
    simp only [hprep]
    show (Builder.fits ⟨vtableBytes ++ (toLE 4 vBytes ++ (pad ++ b.bytes)), none⟩).map _ = _
    rw [← htot]
    rfl
  rw [hend]
  refine .map (builds_fits (by show (ext ++ w).length ≤ _; omega) fun hmax => ?_)
  refine ⟨ext, rfl, by omega, hmax, by omega, by show off ≤ _; omega, ?_⟩
  intro s hs
  obtain ⟨o, ho, hwo, hob, hstand⟩ := hst s hs
  have hget := Builder.vtableEntries_get off ho (by omega)
  have hfo : fieldOffset (ext ++ w) (vBytes : Nat) (4 + 2 * s.1) = some (off - o) := by
    rw [htot, hvtb]
    exact fieldOffset_of_layout (by omega) hget (by omega)
  have hpos : ((ext ++ w).length : Int) - off = (vBytes : Nat) := by rw [htl]; omega
  have hplace : s.2.StandsAt (ext ++ w) (vBytes + (off - o : Nat)) := by
    have := hstand.prepend (vtableBytes ++ (toLE 4 vBytes ++ pad))
    have happ : vtableBytes ++ (toLE 4 vBytes ++ pad) ++ b.bytes = ext ++ w := by
      rw [htot]; simp
    rw [happ, htl] at this
    rwa [show ((vBytes + off : Nat) : Int) - o = vBytes + (off - o : Nat) by omega] at this
  rw [hpos]
  cases hs2 : s.2 with
  | octet v =>
    rw [hs2] at hplace
    exact ⟨off - o, hfo, by omega, hplace⟩
  | ref r =>
    rw [hs2] at hplace
    exact ⟨off - o, hfo, by omega, hplace⟩

theorem object_spec (b : Builder) (w : List UInt8) (n : Nat) (slots : List (Nat × Slot))
    (hw : b.written = some w) (hmax : w.length ≤ maxBufferSize) (hfit : SlotsFit w n slots) :
    Builds (w.length + 8 * slots.length + 2 * n + 16) (reference.object b n slots)
      (Object w n slots) := by
  obtain ⟨hn, hnd, hall⟩ := hfit
  obtain ⟨bytes, object⟩ := b
  cases object with
  | some o => cases hw
  | none =>
    obtain rfl : bytes = w := by simpa [Builder.written] using hw
    have hslots : slots.length ≤ n := by
      have hsub : slots.map Prod.fst ⊆ List.range n := by
        intro k hk
        obtain ⟨s, hs, rfl⟩ := List.mem_map.mp hk
        exact List.mem_range.mpr (hall s hs).1
      simpa using (List.Nodup.subperm hnd hsub).length_le
    have hopen : Open bytes n [] ⟨bytes, some (bytes.length, List.replicate n 0)⟩ :=
      ⟨⟨[], rfl, by simp⟩, _, rfl, List.length_replicate, by simp⟩
    have hput := open_putAll hmax slots hopen hall (by simpa using hnd)
      (by rw [List.length_nil]; omega)
    rw [List.append_nil, List.length_nil, Nat.zero_add] at hput
    show Builds _ ((reference.putAll ⟨bytes, some (bytes.length, List.replicate n 0)⟩ slots).bind
      Builder.endObject) _
    refine Builds.bind hput (by omega) fun b₁ hb₁ => ?_
    have hr : slots.reverse.length = slots.length := List.length_reverse
    have hend := endObject_spec hb₁ hn (by omega)
    unfold Object at hend ⊢
    simpa only [hr, List.mem_reverse] using hend

theorem createByteVector_spec (b : Builder) (w x : List UInt8) (hw : b.written = some w) :
    Builds (w.length + x.length + 8) (b.createByteVector x) fun r =>
      ∃ pad, r.1.written = some (toLE 4 x.length ++ x ++ pad ++ w) ∧ pad.length < 4 ∧
        r.2 = 4 + x.length + pad.length + w.length ∧ r.2 ≤ maxBufferSize := by
  obtain ⟨bytes, object⟩ := b
  cases object with
  | some o => cases hw
  | none =>
    obtain rfl : bytes = w := by simpa [Builder.written] using hw
    obtain ⟨pad, hprep, hpad⟩ := prep_eq ⟨bytes, none⟩ x.length
    have hlen : (toLE 4 x.length ++ (x ++ (pad ++ bytes))).length =
        4 + x.length + pad.length + bytes.length := by
      simp only [List.length_append, length_toLE]
      omega
    unfold Builder.createByteVector
    simp only [hprep, Builder.prepend]
    refine .map (builds_fits (by rw [hlen]; omega) fun hmax => ⟨pad, ?_, hpad, hlen, hmax⟩)
    simp [Builder.written]

theorem finish_spec (b : Builder) (w : List UInt8) (root : Nat) (hw : b.written = some w)
    (hroot : root ≤ w.length) :
    Builds (w.length + 8) (b.finish root) fun b' =>
      ∃ pad, b'.written = some (toLE 4 (4 + pad.length + (w.length - root)) ++ pad ++ w) ∧
        pad.length < 4 := by
  obtain ⟨bytes, object⟩ := b
  cases object with
  | some o => cases hw
  | none =>
    obtain rfl : bytes = w := by simpa [Builder.written] using hw
    obtain ⟨pad, hprep, hpad⟩ := prep_eq ⟨bytes, none⟩ 4
    unfold Builder.finish
    simp only [hprep, Builder.prepend]
    rw [if_pos (by rw [List.length_append]; omega)]
    refine builds_fits ?_ fun _ => ⟨pad, ?_, hpad⟩
    · simp only [List.length_append, length_toLE]
      omega
    · have hd : (pad ++ bytes).length - root + 4 = 4 + pad.length + (bytes.length - root) := by
        rw [List.length_append]
        omega
      rw [hd, List.append_assoc]
      rfl

theorem ReadsAs.refl {α : Type} (b : List UInt8) (x : Option α) : ReadsAs b x x :=
  ⟨fun _ h => h, fun _ => rfl⟩

/-- **The runtime keeps what the documentation promises.** -/
theorem reference_documented : reference.Documented where
  getUint8 _ _ := .refl _ _
  getUint32 _ _ := .refl _ _
  offset _ _ _ := .refl _ _
  vector _ _ _ := .refl _ _
  vectorLen _ _ _ := .refl _ _
  union _ _ _ := .refl _ _
  new := rfl
  createByteVector := createByteVector_spec
  object := object_spec
  finish b w root hw _ hroot := finish_spec b w root hw hroot

end FlatBuffers
