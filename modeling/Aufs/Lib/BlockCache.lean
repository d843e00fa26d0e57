import Mathlib.Data.Nat.Basic
import Mathlib.Logic.Function.Basic

/-! A store of cells, cached by blocks of `bs` cells. A block that is cached is read and changed in
its buffer; a buffer that was changed is dirty until it has been written back. What a reader sees
(`view`) and what the store holds move apart by a change, and together again by a write-back or by
the loss of the buffer. -/

universe u

/-- A buffer: the cells of a block by offset, and whether the store is behind. -/
structure Buf (β : Type u) where
  data : Nat → β
  dirty : Bool

structure BlockCache (β : Type u) where
  store : Nat → β
  cached : Nat → Option (Buf β)

namespace BlockCache

variable {β : Type u} {bs : Nat} {s : BlockCache β} {no no' k : Nat} {buf : Buf β}

/-- Cell `k` of block `no`, as a reader sees it. -/
def view (bs : Nat) (s : BlockCache β) (no k : Nat) : β :=
  match s.cached no with
  | some buf => buf.data k
  | none => s.store (no * bs + k)

def put (s : BlockCache β) (no : Nat) (buf : Option (Buf β)) : BlockCache β :=
  { s with cached := Function.update s.cached no buf }

/-- A clean buffer is the block in the store. -/
def Coherent (bs : Nat) (s : BlockCache β) : Prop :=
  ∀ no buf, s.cached no = some buf → buf.dirty = false →
    ∀ k < bs, buf.data k = s.store (no * bs + k)

/-- What the store holds of block `no`, as a buffer. -/
def fetch (bs : Nat) (s : BlockCache β) (no : Nat) : Buf β where
  data k := s.store (no * bs + k)
  dirty := false

/-- The buffer of block `no`, brought in if need be. -/
def load (bs : Nat) (s : BlockCache β) (no : Nat) : Buf β × BlockCache β :=
  match s.cached no with
  | some buf => (buf, s)
  | none => (s.fetch bs no, s.put no (some (s.fetch bs no)))

/-- The buffer of block `no` is stored and clean. -/
def writeBack (bs : Nat) (s : BlockCache β) (no : Nat) (buf : Buf β) : BlockCache β where
  store a := if no * bs ≤ a ∧ a < no * bs + bs then buf.data (a - no * bs) else s.store a
  cached := Function.update s.cached no (some { buf with dirty := false })

/-- Two blocks share no cell. -/
theorem cell_apart (hne : no' ≠ no) (hk : k < bs) :
    ¬(no * bs ≤ no' * bs + k ∧ no' * bs + k < no * bs + bs) := by
  rintro ⟨hle, hlt⟩
  rcases Nat.lt_or_gt_of_ne hne with h | h
  · have := Nat.mul_le_mul_right bs (show no' + 1 ≤ no from h)
    rw [Nat.add_mul, Nat.one_mul] at this
    omega
  · have := Nat.mul_le_mul_right bs (show no + 1 ≤ no' from h)
    rw [Nat.add_mul, Nat.one_mul] at this
    omega

theorem view_cached (h : s.cached no = some buf) : s.view bs no k = buf.data k := by
  rw [view, h]

theorem view_uncached (h : s.cached no = none) : s.view bs no k = s.store (no * bs + k) := by
  rw [view, h]

@[simp] theorem put_cached {x : Option (Buf β)} : (s.put no x).cached no = x :=
  Function.update_self ..

@[simp] theorem writeBack_cached :
    (s.writeBack bs no buf).cached no = some { buf with dirty := false } :=
  Function.update_self ..

theorem view_put_some : (s.put no (some buf)).view bs no k = buf.data k := view_cached put_cached

theorem view_put_none : (s.put no none).view bs no k = s.store (no * bs + k) :=
  view_uncached put_cached

theorem view_put_ne {x : Option (Buf β)} (h : no' ≠ no) :
    (s.put no x).view bs no' k = s.view bs no' k := by
  simp only [view, put, Function.update_of_ne h]

theorem Coherent.put {x : Option (Buf β)} (h : s.Coherent bs)
    (hx : ∀ buf ∈ x, buf.dirty = false → ∀ k < bs, buf.data k = s.store (no * bs + k)) :
    (s.put no x).Coherent bs := by
  intro no' buf hbuf
  change Function.update s.cached no x no' = some buf at hbuf
  by_cases hno : no' = no
  · subst hno
    rw [Function.update_self] at hbuf
    exact hx buf hbuf
  · rw [Function.update_of_ne hno] at hbuf
    exact h no' buf hbuf

/-! ## Bringing a block in -/

theorem load_data : (s.load bs no).1.data k = s.view bs no k := by
  unfold load
  cases h : s.cached no with
  | some buf => exact (view_cached h).symm
  | none => exact (view_uncached h).symm

@[simp] theorem load_store : (s.load bs no).2.store = s.store := by
  unfold load
  split <;> rfl

theorem load_cached : (s.load bs no).2.cached no = some (s.load bs no).1 := by
  unfold load
  cases h : s.cached no with
  | some buf => exact h
  | none => exact put_cached

theorem load_view : (s.load bs no).2.view bs no' k = s.view bs no' k := by
  by_cases hno : no' = no
  · subst hno
    rw [view_cached load_cached, load_data]
  · unfold load
    cases s.cached no with
    | some buf => rfl
    | none => exact view_put_ne hno

theorem Coherent.load (h : s.Coherent bs) : (s.load bs no).2.Coherent bs := by
  unfold BlockCache.load
  cases s.cached no with
  | some buf => exact h
  | none =>
    refine h.put ?_
    rintro _ ⟨⟩ _ k _
    rfl

/-! ## Writing a block back -/

theorem writeBack_store_self (hk : k < bs) :
    (s.writeBack bs no buf).store (no * bs + k) = buf.data k := by
  simp only [writeBack]
  rw [if_pos ⟨Nat.le_add_right .., by omega⟩, Nat.add_sub_cancel_left]

theorem writeBack_store_ne (hne : no' ≠ no) (hk : k < bs) :
    (s.writeBack bs no buf).store (no' * bs + k) = s.store (no' * bs + k) :=
  if_neg (cell_apart hne hk)

theorem writeBack_view_self : (s.writeBack bs no buf).view bs no k = buf.data k := by
  rw [view_cached writeBack_cached]

theorem writeBack_view_ne (hne : no' ≠ no) (hk : k < bs) :
    (s.writeBack bs no buf).view bs no' k = s.view bs no' k := by
  have hcached : (s.writeBack bs no buf).cached no' = s.cached no' := Function.update_of_ne hne ..
  cases h : s.cached no' with
  | some buf' => rw [view_cached h, view_cached (hcached.trans h)]
  | none => rw [view_uncached h, view_uncached (hcached.trans h), writeBack_store_ne hne hk]

theorem Coherent.writeBack (h : s.Coherent bs) : (s.writeBack bs no buf).Coherent bs := by
  intro no' buf' hbuf' hclean k hk
  change Function.update s.cached no _ no' = some buf' at hbuf'
  by_cases hno : no' = no
  · subst hno
    rw [Function.update_self] at hbuf'
    cases hbuf'
    exact (writeBack_store_self hk).symm
  · rw [Function.update_of_ne hno] at hbuf'
    rw [writeBack_store_ne hno hk]
    exact h no' buf' hbuf' hclean k hk

end BlockCache
