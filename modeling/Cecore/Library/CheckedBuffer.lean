import Cecore.Library.LittleEndian
import Mathlib.Data.List.Forall2

/-!
# Reading a buffer under checks

What a program makes of a buffer, with each thing that must not happen as a fault: a byte outside
the buffer is read, a signed sum does not fit. `Runs` says that a computation has a result, and of
what kind; its rules follow the operations of the monad and the loops over lists.
-/

set_option autoImplicit false
set_option relaxedAutoImplicit false

namespace Cecore.Library.CheckedBuffer

open LittleEndian

/-- Bytes; what stands from `size` on is not part of the buffer. -/
structure Buffer where
  size : ℕ
  byte : ℕ → UInt8

inductive Fault
  /-- A byte outside the buffer is read. -/
  | outside
  /-- A signed sum does not fit. -/
  | overflow
  /-- The program throws an exception. -/
  | thrown
  deriving DecidableEq, Repr

abbrev Checked (α : Type) := Except Fault α

namespace Buffer

variable (b : Buffer)

def bytes (position n : ℕ) : List UInt8 := (List.range n).map fun i ↦ b.byte (position + i)

/-- The unsigned number at a position. -/
def nat (width position : ℕ) : ℕ := leNat (b.bytes position width)

/-- The signed number at a position. -/
def int (width position : ℕ) : ℤ := signedOf width (b.nat width position)

def read (position : ℤ) (n : ℕ) : Checked (List UInt8) :=
  if 0 ≤ position ∧ position + n ≤ b.size then .ok (b.bytes position.toNat n) else .error .outside

def readNat (width : ℕ) (position : ℤ) : Checked ℕ :=
  if 0 ≤ position ∧ position + width ≤ b.size then .ok (b.nat width position.toNat)
  else .error .outside

def readInt (width : ℕ) (position : ℤ) : Checked ℤ :=
  if 0 ≤ position ∧ position + width ≤ b.size then .ok (b.int width position.toNat)
  else .error .outside

/-- A buffer that is a list. -/
def ofList (bytes : List UInt8) : Buffer where
  size := bytes.length
  byte i := bytes.getD i 0

/-- A buffer of `n` words of eight bytes: those that are listed with their numbers, and zeros. -/
def ofWords (n : ℕ) (words : List (ℕ × ℕ)) : Buffer where
  size := 8 * n
  byte i := UInt8.ofNat ((words.lookup (i / 8)).getD 0 / 256 ^ (i % 8))

variable {b}

@[simp] theorem length_bytes (position n : ℕ) : (b.bytes position n).length = n := by
  simp [bytes]

theorem nat_lt (width position : ℕ) : b.nat width position < 256 ^ width := by
  have h := leNat_lt (b.bytes position width)
  rwa [length_bytes] at h

theorem read_ok {position : ℤ} {n : ℕ} (hlow : 0 ≤ position) (hhigh : position + n ≤ b.size) :
    b.read position n = .ok (b.bytes position.toNat n) := if_pos ⟨hlow, hhigh⟩

theorem readNat_ok {width : ℕ} {position : ℤ} (hlow : 0 ≤ position)
    (hhigh : position + width ≤ b.size) :
    b.readNat width position = .ok (b.nat width position.toNat) := if_pos ⟨hlow, hhigh⟩

theorem readInt_ok {width : ℕ} {position : ℤ} (hlow : 0 ≤ position)
    (hhigh : position + width ≤ b.size) :
    b.readInt width position = .ok (b.int width position.toNat) := if_pos ⟨hlow, hhigh⟩

theorem eq_of_readNat {width value : ℕ} (position : ℕ) (h : b.readNat width position = .ok value) :
    b.nat width position = value := by
  rw [readNat] at h
  split at h
  · cases h
    rfl
  · cases h

theorem eq_of_readInt {width : ℕ} {value : ℤ} (position : ℕ)
    (h : b.readInt width position = .ok value) :
    b.int width position = value := by
  rw [readInt] at h
  split at h
  · cases h
    rfl
  · cases h

theorem readNat_outside {width : ℕ} {z : ℤ} (position : ℕ) (hz : z = position)
    (h : b.size < position + width) : b.readNat width z = .error .outside := if_neg (by omega)

end Buffer

/-! ### Computations that have a result -/

section

variable {α β : Type}

theorem ok_bind (a : α) (f : α → Checked β) : (.ok a : Checked α) >>= f = f a := rfl

/-- The computation has a result, of this kind. -/
def Runs (x : Checked α) (p : α → Prop) : Prop := ∃ a, x = .ok a ∧ p a

theorem Runs.ret {a : α} {p : α → Prop} (h : p a) : Runs (pure a) p := ⟨a, rfl, h⟩

theorem Runs.bind {x : Checked α} {f : α → Checked β} {p : α → Prop} {q : β → Prop}
    (hx : Runs x p) (hf : ∀ a, p a → Runs (f a) q) : Runs (x >>= f) q := by
  obtain ⟨a, rfl, ha⟩ := hx
  exact hf a ha

theorem Runs.mono {x : Checked α} {p q : α → Prop} (hx : Runs x p) (h : ∀ a, p a → q a) :
    Runs x q := by
  obtain ⟨a, hresult, ha⟩ := hx
  exact ⟨a, hresult, h a ha⟩

/-- A result is the result of the rest, behind the result of the first part. -/
theorem bind_eq_ok_iff {x : Checked α} {f : α → Checked β} {b : β} :
    x >>= f = .ok b ↔ ∃ a, x = .ok a ∧ f a = .ok b := by
  cases x with
  | error fault =>
    constructor
    · intro h
      cases h
    · rintro ⟨a, h, -⟩
      cases h
  | ok a =>
    constructor
    · intro h
      exact ⟨a, rfl, h⟩
    · rintro ⟨a', h, hf⟩
      cases h
      exact hf

/-- A loop that collects results has one for each item. -/
theorem mapM_eq_ok_iff {f : α → Checked β} {items : List α} {results : List β} :
    items.mapM f = .ok results ↔
      List.Forall₂ (fun item result ↦ f item = .ok result) items results := by
  induction items generalizing results with
  | nil =>
    rw [List.mapM_nil, List.forall₂_nil_left_iff]
    constructor
    · intro h
      cases h
      rfl
    · rintro rfl
      rfl
  | cons item rest ih =>
    rw [List.mapM_cons, bind_eq_ok_iff]
    constructor
    · rintro ⟨first, hfirst, h⟩
      obtain ⟨others, hothers, h⟩ := bind_eq_ok_iff.mp h
      cases h
      exact .cons hfirst (ih.mp hothers)
    · intro h
      cases h with
      | cons hfirst hothers =>
        exact ⟨_, hfirst, bind_eq_ok_iff.mpr ⟨_, ih.mpr hothers, rfl⟩⟩

theorem runs_mapM {f : α → Checked β} {items : List α} {p : α → β → Prop}
    (h : ∀ item ∈ items, Runs (f item) (p item)) :
    Runs (items.mapM f) (List.Forall₂ p items) := by
  induction items with
  | nil => exact ⟨[], rfl, .nil⟩
  | cons item rest ih =>
    rw [List.mapM_cons]
    refine (h item List.mem_cons_self).bind fun first hfirst ↦ ?_
    refine (ih fun other hother ↦ h other (List.mem_cons_of_mem _ hother)).bind fun others hothers ↦ ?_
    exact .ret (.cons hfirst hothers)

/-- A loop of computations that have a result has one. -/
theorem runs_mapM_of_runs {f : α → Checked β} {items : List α}
    (h : ∀ item ∈ items, Runs (f item) fun _ ↦ True) : Runs (items.mapM f) fun _ ↦ True :=
  (runs_mapM (p := fun _ _ ↦ True) h).mono fun _ _ ↦ trivial

/-- Every result is the result of some item. -/
theorem exists_of_mem_results {p : α → β → Prop} {items : List α} {results : List β}
    (h : List.Forall₂ p items results) {result : β} (hresult : result ∈ results) :
    ∃ item ∈ items, p item result := by
  induction h with
  | nil => cases hresult
  | cons hfirst _ ih =>
    rcases List.mem_cons.mp hresult with rfl | hrest
    · exact ⟨_, List.mem_cons_self, hfirst⟩
    · obtain ⟨item, hitem, hp⟩ := ih hrest
      exact ⟨item, List.mem_cons_of_mem _ hitem, hp⟩

/-- Every item has a result. -/
theorem exists_result_of_mem {p : α → β → Prop} {items : List α} {results : List β}
    (h : List.Forall₂ p items results) {item : α} (hitem : item ∈ items) :
    ∃ result ∈ results, p item result := by
  induction h with
  | nil => cases hitem
  | cons hfirst _ ih =>
    rcases List.mem_cons.mp hitem with rfl | hrest
    · exact ⟨_, List.mem_cons_self, hfirst⟩
    · obtain ⟨result, hresult, hp⟩ := ih hrest
      exact ⟨result, List.mem_cons_of_mem _ hresult, hp⟩

/-- A loop that keeps an invariant. -/
theorem runs_foldlM {f : β → α → Checked β} {items : List α} {start : β} {p : β → Prop}
    (hstart : p start) (h : ∀ item ∈ items, ∀ value, p value → Runs (f value item) p) :
    Runs (items.foldlM f start) p := by
  induction items generalizing start with
  | nil => exact ⟨start, rfl, hstart⟩
  | cons item rest ih =>
    rw [List.foldlM_cons]
    exact (h item List.mem_cons_self start hstart).bind fun value hvalue ↦
      ih hvalue fun other hother ↦ h other (List.mem_cons_of_mem _ hother)

/-- The results of a stretch of the items are that stretch of the results. -/
theorem mapM_stretch {f : ℕ → Checked β} {n start count : ℕ} {results : List β}
    (h : (List.range n).mapM f = .ok results) (hle : start + count ≤ n) :
    (List.range' start count).mapM f = .ok ((results.drop start).take count) := by
  rw [mapM_eq_ok_iff] at h ⊢
  have hrange : List.range' start count = ((List.range n).drop start).take count := by
    refine List.ext_getElem ?_ fun i _ _ ↦ ?_
    · rw [List.length_range', List.length_take, List.length_drop, List.length_range]
      omega
    · simp
  rw [hrange]
  exact List.forall₂_take _ (List.forall₂_drop _ h)

/-- A read inside the buffer, and what is made of the number. -/
theorem Runs.readNat {b : Buffer} {width : ℕ} {z : ℤ} {f : ℕ → Checked β} {q : β → Prop}
    (position : ℕ) (hz : z = position) (h : position + width ≤ b.size)
      (hf : Runs (f (b.nat width position)) q) :
    Runs (b.readNat width z >>= f) q := by
  subst hz
  rw [Buffer.readNat_ok (by omega) (by omega)]
  exact hf

theorem Runs.readInt {b : Buffer} {width : ℕ} {z : ℤ} {f : ℤ → Checked β} {q : β → Prop}
    (position : ℕ) (hz : z = position) (h : position + width ≤ b.size)
    (hf : Runs (f (b.int width position)) q) : Runs (b.readInt width z >>= f) q := by
  subst hz
  rw [Buffer.readInt_ok (by omega) (by omega)]
  exact hf

theorem Runs.not_outside {x : Checked α} {p : α → Prop} (h : Runs x p) : x ≠ .error .outside := by
  obtain ⟨a, rfl, -⟩ := h
  rintro ⟨⟩

/-! ### Computations that leave the buffer under a condition -/

/-- The computation reads outside the buffer if the condition holds, and has a result of this kind if
it does not. -/
def OutsideIff (cut : Prop) (x : Checked α) (p : α → Prop) : Prop :=
  ¬cut ∧ Runs x p ∨ cut ∧ x = .error .outside

namespace OutsideIff

variable {cut : Prop} {p : α → Prop} {q : β → Prop}

theorem of_runs {x : Checked α} (hcut : ¬cut) (hx : Runs x p) : OutsideIff cut x p :=
  .inl ⟨hcut, hx⟩

/-- A test in front, which the condition passes. -/
theorem test {c : Prop} [Decidable c] {x y : Checked α} (hcut : cut → ¬c) (hx : Runs x p)
    (hy : ¬c → OutsideIff cut y p) : OutsideIff cut (if c then x else y) p := by
  by_cases hc : c
  · rw [if_pos hc]
    exact .inl ⟨fun h ↦ hcut h hc, hx⟩
  · rw [if_neg hc]
    exact hy hc

theorem bind {x : Checked α} {f : α → Checked β} (hx : Runs x p)
    (hf : ∀ a, p a → OutsideIff cut (f a) q) : OutsideIff cut (x >>= f) q := by
  obtain ⟨a, rfl, ha⟩ := hx
  exact hf a ha

/-- The first part decides. -/
theorem andThen {x : Checked α} {f : α → Checked β} (hx : OutsideIff cut x p)
    (hf : ∀ a, p a → Runs (f a) q) : OutsideIff cut (x >>= f) q := by
  rcases hx with ⟨hcut, hx⟩ | ⟨hcut, rfl⟩
  · exact .inl ⟨hcut, hx.bind hf⟩
  · exact .inr ⟨hcut, rfl⟩

theorem mono {p' : α → Prop} {x : Checked α} (hx : OutsideIff cut x p) (h : ∀ a, p a → p' a) :
    OutsideIff cut x p' :=
  hx.imp (And.imp_right fun hx ↦ hx.mono h) id

theorem congr {cut' : Prop} {x : Checked α} (hx : OutsideIff cut x p) (h : cut ↔ cut') :
    OutsideIff cut' x p := by
  rwa [← propext h]

theorem read {b : Buffer} {n : ℕ} {z : ℤ} {f : List UInt8 → Checked β} (position : ℕ)
    (hz : z = position) (h : position + n ≤ b.size) (hf : OutsideIff cut (f (b.bytes position n)) q) :
    OutsideIff cut (b.read z n >>= f) q := by
  subst hz
  rw [Buffer.read_ok (by omega) (by omega)]
  exact hf

theorem readNat {b : Buffer} {width : ℕ} {z : ℤ} {f : ℕ → Checked β} (position : ℕ)
    (hz : z = position) (h : position + width ≤ b.size)
    (hf : OutsideIff cut (f (b.nat width position)) q) :
    OutsideIff cut (b.readNat width z >>= f) q := by
  subst hz
  rw [Buffer.readNat_ok (by omega) (by omega)]
  exact hf

theorem readInt {b : Buffer} {width : ℕ} {z : ℤ} {f : ℤ → Checked β} (position : ℕ)
    (hz : z = position) (h : position + width ≤ b.size)
    (hf : OutsideIff cut (f (b.int width position)) q) :
    OutsideIff cut (b.readInt width z >>= f) q := by
  subst hz
  rw [Buffer.readInt_ok (by omega) (by omega)]
  exact hf

theorem runs {x : Checked α} (h : OutsideIff cut x p) (hcut : ¬cut) : Runs x p :=
  h.elim And.right fun h ↦ absurd h.1 hcut

theorem not_outside_iff {x : Checked α} (h : OutsideIff cut x p) : x ≠ .error .outside ↔ ¬cut := by
  rcases h with ⟨hcut, a, rfl, -⟩ | ⟨hcut, rfl⟩
  · exact iff_of_true (fun h ↦ by cases h) hcut
  · exact iff_of_false (not_not.mpr rfl) (not_not.mpr hcut)

end OutsideIff

end

end Cecore.Library.CheckedBuffer
