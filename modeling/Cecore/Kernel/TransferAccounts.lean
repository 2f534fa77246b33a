import Cecore.Kernel.ChunkedTransfer
import Mathlib.Tactic.Set

/-!
# What chunked transfers count and access

A turn of either loop that counts bytes has moved them, from the offset that the loop had reached, and
one that fails counts none (`TurnSpec`). The rest of both functions is the same: a run of such turns
accesses the two ranges of the request only, gives back what it takes, and counts what it moved
(`run_transferred`).
-/

set_option autoImplicit false
set_option relaxedAutoImplicit false

namespace Cecore.Kmod

open Library Library.ChunkedCopy

/-! ### What is said of a log -/

/-- The bytes that an event asks for are those of the request, and no more than a buffer has. -/
def Event.Inside (remote user size : ℕ) : Event → Prop
  | .acquire _ | .release _ => True
  | .fromUser first asked data | .toUser first asked data =>
    user ≤ first ∧ first + asked ≤ user + size ∧ data.length ≤ asked ∧ asked ≤ chunkSize
  | .fromRemote _ first asked data | .toRemote _ first asked data =>
    remote ≤ first ∧ first + asked ≤ remote + size ∧ data.length ≤ asked ∧ asked ≤ chunkSize

/-- Physical memory is accessed through the mapping of one page, and in it. -/
def Event.InPage : Event → Prop
  | .fromRemote mapping first asked _ | .toRemote mapping first asked _ =>
    ∃ page, mapping = some page ∧ pageSize ∣ page ∧ page ≤ first ∧ first + asked ≤ page + pageSize
  | _ => True

def holdings : Holdings Event Resource where
  takes
    | .acquire r => some r
    | _ => none
  gives
    | .release r => some r
    | _ => none

/-- What is fetched on the side that a transfer comes from. -/
def fetchedPiece (write : Bool) : Event → Option Piece
  | .fromUser first _ data => if write then some ⟨first, data⟩ else none
  | .fromRemote _ first _ data => if write then none else some ⟨first, data⟩
  | _ => none

/-- What is stored on the side that a transfer goes to. -/
def storedPiece (write : Bool) : Event → Option Piece
  | .toRemote _ first _ data => if write then some ⟨first, data⟩ else none
  | .toUser first _ data => if write then none else some ⟨first, data⟩
  | _ => none

def sourceBase (write : Bool) (remote user : ℕ) : ℕ := if write then user else remote

def sinkBase (write : Bool) (remote user : ℕ) : ℕ := if write then remote else user

section Turns

variable (P : Event → Prop) (write : Bool) (remote user size taskSize : ℕ)

/-- Turns that have moved the bytes from `done` to `last`. -/
structure Counted (done : ℕ) (log : List Event) (last : ℕ) : Prop where
  bounded : last = done ∨ last ≤ size ∧ user + last ≤ taskSize
  accesses : ∀ e ∈ log, P e
  balanced : holdings.Balanced log
  stored : ∃ parts, log.filterMap (storedPiece write) =
    consecutive (sinkBase write remote user + done) parts ∧ done + parts.flatten.length = last
  sourced : Sourced (fetchedPiece write) (storedPiece write) (sourceBase write remote user)
    (sinkBase write remote user) log

/-- A turn that failed behind `done` bytes. What a copy to the user stored in front of its fault
stays. -/
structure Failed (done : ℕ) (log : List Event) (ret : ℤ) : Prop where
  negative : ret < 0
  accesses : ∀ e ∈ log, P e
  balanced : holdings.Balanced log
  stored : log.filterMap (storedPiece write) = [] ∨
    ∃ bytes, log.filterMap (storedPiece write) = [⟨sinkBase write remote user + done, bytes⟩] ∧
      (write → bytes = [])
  sourced : Sourced (fetchedPiece write) (storedPiece write) (sourceBase write remote user)
    (sinkBase write remote user) log

/-- What a turn of a loop does. -/
structure TurnSpec (done : ℕ) (turn : List Event × Turn) : Prop where
  counted : (∀ ret, turn.2 ≠ .failed ret) →
    Counted P write remote user size taskSize done turn.1 (done + turn.2.copied)
  failed : ∀ ret, turn.2 = .failed ret → Failed P write remote user done turn.1 ret

/-- A loop that counted `count` bytes: they were moved in order, and a copy to the user behind them
may have stored more of its chunk in front of a fault. -/
structure Moved (count : ℕ) (log : List Event) : Prop where
  bounded : count ≤ size
  accesses : ∀ e ∈ log, P e
  balanced : holdings.Balanced log
  stored : ∃ parts rest, log.filterMap (storedPiece write) =
      consecutive (sinkBase write remote user) parts ++ rest ∧ parts.flatten.length = count ∧
    (rest = [] ∨ ∃ bytes, rest = [⟨sinkBase write remote user + count, bytes⟩] ∧
      (write → bytes = []))
  sourced : Sourced (fetchedPiece write) (storedPiece write) (sourceBase write remote user)
    (sinkBase write remote user) log

/-- A log in which one piece is stored, that was fetched before. -/
structure OneStored (front : List Event) (e : Event) (back : List Event) (done : ℕ)
    (bytes : List UInt8) : Prop where
  quietFront : ∀ e' ∈ front, storedPiece write e' = none
  quietBack : ∀ e' ∈ back, storedPiece write e' = none
  stored : storedPiece write e = some ⟨sinkBase write remote user + done, bytes⟩
  fetched : ∃ data, ⟨sourceBase write remote user + done, data⟩ ∈
    front.filterMap (fetchedPiece write) ∧ bytes <+: data

variable {P write remote user size taskSize}

theorem counted_composes : Composes (Counted P write remote user size taskSize) where
  refl done := by
    refine ⟨.inl rfl, by simp, Holdings.balanced_nil, ⟨[], rfl, rfl⟩, sourced_of_quiet (by simp)⟩
  trans := by
    rintro done mid last log added hlog hadded
    obtain ⟨parts, hparts, hmid⟩ := hlog.stored
    obtain ⟨parts', hparts', hlast⟩ := hadded.stored
    refine ⟨?_, ?_, hlog.balanced.append hadded.balanced, ⟨parts ++ parts', ?_, ?_⟩,
      hlog.sourced.append hadded.sourced⟩
    · rcases hadded.bounded with heq | hbounded
      · rw [heq]
        exact hlog.bounded
      · exact .inr hbounded
    · intro e he
      rcases List.mem_append.mp he with he | he
      · exact hlog.accesses e he
      · exact hadded.accesses e he
    · rw [List.filterMap_append, hparts, hparts', consecutive_append, Nat.add_assoc, hmid]
    · rw [List.flatten_append, List.length_append]
      omega

/-- A run of turns moves what it counts, and returns a negative number only if it counts nothing. -/
theorem run_moved {turn : (k done : ℕ) → done < size → List Event × Turn}
    (hturn : ∀ k done h, TurnSpec P write remote user size taskSize done (turn k done h)) :
    Moved P write remote user size (run turn 0 0).done (run turn 0 0).log ∧
      (run turn 0 0).ret ≤ 0 ∧
      ((run turn 0 0).done ≠ 0 → user + (run turn 0 0).done ≤ taskSize) := by
  obtain ⟨counted, tail, hlog, hcounted, htail⟩ :=
    run_split counted_composes (fun k done h hended ↦ (hturn k done h).counted hended) 0 0
  obtain ⟨parts, hparts, hcount⟩ := hcounted.stored
  rw [Nat.zero_add] at hcount
  have hsize : (run turn 0 0).done ≤ size := by
    rcases hcounted.bounded with heq | ⟨hle, -⟩
    · omega
    · exact hle
  have htask : (run turn 0 0).done ≠ 0 → user + (run turn 0 0).done ≤ taskSize := by
    intro hne
    rcases hcounted.bounded with heq | ⟨-, hle⟩
    · exact absurd heq hne
    · exact hle
  rcases htail with ⟨rfl, hret⟩ | ⟨k, h, hfailed⟩
  · rw [List.append_nil] at hlog
    rw [hlog, hret]
    exact ⟨⟨hsize, hcounted.accesses, hcounted.balanced,
      ⟨parts, [], by rw [hparts, List.append_nil]; rfl, hcount, .inl rfl⟩, hcounted.sourced⟩,
      Int.le_refl 0, htask⟩
  · have hspec := (hturn k _ h).failed _ (by rw [hfailed])
    rw [hfailed] at hspec
    refine ⟨⟨hsize, ?_, ?_, ⟨parts, tail.filterMap (storedPiece write), ?_, hcount, ?_⟩, ?_⟩,
      Int.le_of_lt hspec.negative, htask⟩
    · intro e he
      rw [hlog] at he
      rcases List.mem_append.mp he with he | he
      · exact hcounted.accesses e he
      · exact hspec.accesses e he
    · rw [hlog]
      exact hcounted.balanced.append hspec.balanced
    · rw [hlog, List.filterMap_append, hparts]
      rfl
    · exact hspec.stored
    · rw [hlog]
      exact hcounted.sourced.append hspec.sourced

theorem OneStored.filterMap {front back : List Event} {e : Event} {done : ℕ} {bytes : List UInt8}
    (h : OneStored write remote user front e back done bytes) :
    (front ++ e :: back).filterMap (storedPiece write) =
      [⟨sinkBase write remote user + done, bytes⟩] := by
  rw [List.filterMap_append, List.filterMap_cons, h.stored,
    List.filterMap_eq_nil_iff.mpr h.quietFront, List.filterMap_eq_nil_iff.mpr h.quietBack]
  rfl

theorem OneStored.sourced {front back : List Event} {e : Event} {done : ℕ} {bytes : List UInt8}
    (h : OneStored write remote user front e back done bytes) :
    Sourced (fetchedPiece write) (storedPiece write) (sourceBase write remote user)
      (sinkBase write remote user) (front ++ e :: back) := by
  obtain ⟨data, hmem, hprefix⟩ := h.fetched
  refine sourced_of_one h.quietFront h.quietBack h.stored ⟨_, hmem, ?_, hprefix⟩
  dsimp only
  omega

/-- A turn that ends well, with one piece stored. -/
theorem TurnSpec.of_one {front back : List Event} {e : Event} {done : ℕ} {bytes : List UInt8}
    {turn : Turn} (hone : OneStored write remote user front e back done bytes)
    (haccesses : ∀ e' ∈ front ++ e :: back, P e')
    (hbalanced : holdings.Balanced (front ++ e :: back)) (hcopied : turn.copied = bytes.length)
    (hended : ∀ ret, turn ≠ .failed ret)
    (hbounded : done + bytes.length ≤ size ∧ user + (done + bytes.length) ≤ taskSize) :
    TurnSpec P write remote user size taskSize done (front ++ e :: back, turn) where
  counted _ := by
    rw [hcopied]
    refine ⟨.inr hbounded, haccesses, hbalanced, ⟨[bytes], hone.filterMap, ?_⟩, hone.sourced⟩
    rw [List.flatten_singleton]
  failed ret hret := absurd hret (hended ret)

/-- A turn that fails. -/
theorem TurnSpec.of_failed {log : List Event} {done : ℕ} {ret : ℤ}
    (h : Failed P write remote user done log ret) :
    TurnSpec P write remote user size taskSize done (log, .failed ret) where
  counted hended := absurd rfl (hended ret)
  failed ret' hret := by
    cases hret
    exact h

/-- A turn that fails when nothing is stored yet. -/
theorem Failed.of_quiet {log : List Event} {done : ℕ} {ret : ℤ} (hnegative : ret < 0)
    (haccesses : ∀ e ∈ log, P e) (hbalanced : holdings.Balanced log)
    (hquiet : ∀ e ∈ log, storedPiece write e = none) : Failed P write remote user done log ret :=
  ⟨hnegative, haccesses, hbalanced, .inl (List.filterMap_eq_nil_iff.mpr hquiet),
    sourced_of_quiet hquiet⟩

/-- A turn that fails in storing a piece. -/
theorem Failed.of_one {front back : List Event} {e : Event} {done : ℕ} {bytes : List UInt8}
    {ret : ℤ} (hone : OneStored write remote user front e back done bytes) (hnegative : ret < 0)
    (haccesses : ∀ e' ∈ front ++ e :: back, P e')
    (hbalanced : holdings.Balanced (front ++ e :: back)) (hwrite : write → bytes = []) :
    Failed P write remote user done (front ++ e :: back) ret :=
  ⟨hnegative, haccesses, hbalanced, .inr ⟨bytes, hone.filterMap, hwrite⟩, hone.sourced⟩

end Turns

/-! ### The functions of the kernel -/

theorem balanced_single {e : Event} (htakes : holdings.takes e = none)
    (hgives : holdings.gives e = none) : holdings.Balanced [e] :=
  Holdings.balanced_nil.cons_quiet htakes hgives

theorem balanced_pair {e e' : Event} (htakes : holdings.takes e = none)
    (hgives : holdings.gives e = none) (htakes' : holdings.takes e' = none)
    (hgives' : holdings.gives e' = none) : holdings.Balanced [e, e'] :=
  (balanced_single htakes' hgives').cons_quiet htakes hgives

namespace Kernel

variable (kernel : Kernel) (k : ℕ)

theorem copyFromUser_spec (user n : ℕ) :
    ∃ data left, kernel.copyFromUser k user n = (.fromUser user n data, data, left) ∧
      data.length ≤ n ∧ (left = 0 → data.length = n) ∧
      (left = 0 → 0 < n → user + n ≤ kernel.taskSize) := by
  refine ⟨_, _, rfl, ?_⟩
  split_ifs with hroom
  · have hle := List.length_take_le n (kernel.userBytes k)
    exact ⟨hle, fun hleft ↦ by omega, fun _ _ ↦ hroom⟩
  · simp only [List.length_nil]
    exact ⟨Nat.zero_le n, fun hleft ↦ by omega, fun hleft hn ↦ by omega⟩

theorem copyToUser_spec (user : ℕ) (data : List UInt8) :
    ∃ stored left, kernel.copyToUser k user data = (.toUser user data.length stored, left) ∧
      stored <+: data ∧ (left = 0 → stored = data) ∧
      (left = 0 → data ≠ [] → user + data.length ≤ kernel.taskSize) := by
  refine ⟨_, _, rfl, ?_⟩
  split_ifs with hroom
  · refine ⟨List.take_prefix _ _, fun hleft ↦ ?_, fun _ _ ↦ hroom⟩
    refine (List.take_prefix _ _).eq_of_length_le ?_
    omega
  · simp only [List.length_nil]
    refine ⟨List.nil_prefix, fun hleft ↦ ?_, fun hleft hne ↦ ?_⟩
    · exact (List.eq_nil_of_length_eq_zero (by omega)).symm
    · exact absurd (List.eq_nil_of_length_eq_zero (by omega)) hne

theorem readRemote_spec (remote n : ℕ) :
    ∃ data copied, kernel.readRemote k remote n = (.fromRemote none remote n data, data, copied) ∧
      data.length ≤ n ∧ (0 < copied → copied = data.length) := by
  unfold readRemote
  cases kernel.remoteBytes k with
  | error e => exact ⟨[], _, rfl, Nat.zero_le n, fun hpos ↦ by omega⟩
  | ok bytes => exact ⟨_, _, rfl, List.length_take_le n bytes, fun _ ↦ rfl⟩

theorem writeRemote_spec (remote : ℕ) (data : List UInt8) :
    ∃ stored copied,
      kernel.writeRemote k remote data = (.toRemote none remote data.length stored, copied) ∧
      stored <+: data ∧ (0 < copied → copied = stored.length) ∧ (copied ≤ 0 → stored = []) := by
  unfold writeRemote
  cases kernel.remoteRoom k with
  | error e => exact ⟨[], _, rfl, List.nil_prefix, fun hpos ↦ by omega, fun _ ↦ rfl⟩
  | ok room =>
    refine ⟨_, _, rfl, List.take_prefix room data, fun _ ↦ rfl, fun hle ↦ ?_⟩
    exact List.eq_nil_of_length_eq_zero (by omega)

theorem memcpyFromio_spec (page phys n : ℕ) :
    ∃ data, kernel.memcpyFromio k page phys n = (.fromRemote (some page) phys n data, data) ∧
      data.length = n :=
  ⟨_, rfl, by rw [List.length_map, List.length_range]⟩

theorem memdupUser_spec (user n : ℕ) :
    (∃ copying ret, kernel.memdupUser k user n = (copying, .error ret) ∧ ret < 0 ∧
        holdings.Balanced copying ∧
        ∀ e ∈ copying, (∃ r, e = .acquire r ∨ e = .release r) ∨
          ∃ data : List UInt8, e = .fromUser user n data ∧ data.length ≤ n) ∨
      ∃ data, kernel.memdupUser k user n =
          ([.acquire (.buffer n), .fromUser user n data], .ok data) ∧
        data.length = n ∧ (0 < n → user + n ≤ kernel.taskSize) := by
  obtain ⟨data, left, hcopy, hdata, hwhole, htask⟩ := kernel.copyFromUser_spec k user n
  unfold memdupUser
  split_ifs with hkmalloc
  · exact .inl ⟨[], _, rfl, by decide, Holdings.balanced_nil, by simp⟩
  · rw [hcopy]
    dsimp only
    split_ifs with hshort
    · refine .inl ⟨_, _, rfl, by decide, ?_, ?_⟩
      · exact Holdings.Balanced.bracket rfl rfl rfl (balanced_single rfl rfl)
      · simp only [List.mem_cons, List.not_mem_nil, or_false, forall_eq_or_imp, forall_eq]
        exact ⟨.inl ⟨_, .inl rfl⟩, .inr ⟨data, rfl, hdata⟩, .inl ⟨_, .inr rfl⟩⟩
    · have hfull := not_not.mp hshort
      exact .inr ⟨data, rfl, hwhole hfull, htask hfull⟩

end Kernel

theorem settle_of_pos {copied chunk : ℕ} (hpos : 0 < copied) :
    (settle copied chunk).copied = copied ∧ ∀ ret, settle copied chunk ≠ .failed ret := by
  unfold settle
  split_ifs <;> simp_all [Turn.copied]

theorem settle_of_nonpos {copied : ℤ} (hle : copied ≤ 0) (chunk : ℕ) :
    ∃ ret < 0, settle copied chunk = .failed ret := by
  unfold settle
  rw [dif_pos hle]
  refine ⟨_, ?_, rfl⟩
  split_ifs with hneg
  · exact hneg
  · decide

/-! ### The turns -/

/-- An address of the range of a request does not wrap. -/
theorem mod_of_range {first size done : ℕ} (hrange : first + size < sizeModulus)
    (hdone : done < size) : (first + done) % sizeModulus = first + done :=
  Nat.mod_eq_of_lt (by omega)

theorem processTurn_spec (kernel : Kernel) (req : MemRequest) (write : Bool)
    (hremote : req.remoteAddress.toNat + req.size.toNat < sizeModulus)
    (huser : req.userBuffer.toNat + req.size.toNat < sizeModulus) (k done : ℕ)
    (hdone : done < req.size.toNat) :
    TurnSpec (Event.Inside req.remoteAddress.toNat req.userBuffer.toNat req.size.toNat) write
      req.remoteAddress.toNat req.userBuffer.toNat req.size.toNat kernel.taskSize done
      (processTurn kernel req write k done hdone) := by
  have hchunk : min chunkSize (req.size.toNat - done) ≤ chunkSize := Nat.min_le_left _ _
  have hleft : min chunkSize (req.size.toNat - done) ≤ req.size.toNat - done := Nat.min_le_right _ _
  have hpos : 0 < min chunkSize (req.size.toNat - done) :=
    Nat.lt_min.mpr ⟨by decide, by omega⟩
  unfold processTurn
  rw [mod_of_range hremote hdone, mod_of_range huser hdone]
  generalize min chunkSize (req.size.toNat - done) = chunk at hchunk hleft hpos
  cases write with
  | true =>
    obtain ⟨data, left, hcopy, hdata, hwhole, htask⟩ :=
      kernel.copyFromUser_spec k (req.userBuffer.toNat + done) chunk
    simp only [if_true, hcopy]
    split_ifs with hshort
    · refine .of_failed (.of_quiet (by decide) ?_ (balanced_single rfl rfl) (by simp [storedPiece]))
      simp only [List.mem_singleton, forall_eq, Event.Inside]
      omega
    · have hfull := hwhole (not_not.mp hshort)
      obtain ⟨stored, copied, hwritten, hprefix, hcount, hnone⟩ :=
        kernel.writeRemote_spec k (req.remoteAddress.toNat + done) data
      have hstored := hprefix.length_le
      have hone : OneStored true req.remoteAddress.toNat req.userBuffer.toNat
          [.fromUser (req.userBuffer.toNat + done) chunk data]
          (.toRemote none (req.remoteAddress.toNat + done) data.length stored) [] done stored :=
        ⟨by simp [storedPiece], by simp, rfl, data, by simp [fetchedPiece, sourceBase], hprefix⟩
      have haccesses : ∀ e ∈ [Event.fromUser (req.userBuffer.toNat + done) chunk data] ++
          .toRemote none (req.remoteAddress.toNat + done) data.length stored :: [],
          e.Inside req.remoteAddress.toNat req.userBuffer.toNat req.size.toNat := by
        simp only [List.singleton_append, List.mem_cons, List.not_mem_nil, or_false,
          forall_eq_or_imp, forall_eq, Event.Inside]
        omega
      rw [hwritten]
      dsimp only
      by_cases hlt : 0 < copied
      · obtain rfl := hcount hlt
        obtain ⟨hcopied, hended⟩ := @settle_of_pos stored.length chunk (by omega)
        have htaskSize := htask (not_not.mp hshort) hpos
        exact .of_one hone haccesses (balanced_pair rfl rfl rfl rfl) hcopied hended (by omega)
      · have hle := Int.not_lt.mp hlt
        obtain ⟨ret, hneg, hsettle⟩ := settle_of_nonpos hle chunk
        rw [hsettle]
        exact .of_failed (.of_one hone hneg haccesses (balanced_pair rfl rfl rfl rfl)
          fun _ ↦ hnone hle)
  | false =>
    obtain ⟨data, copied, hread, hdata, hcount⟩ :=
      kernel.readRemote_spec k (req.remoteAddress.toNat + done) chunk
    simp only [Bool.false_eq_true, if_false, hread]
    by_cases hlt : 0 < copied
    · obtain rfl := hcount hlt
      obtain ⟨stored, left, hcopy, hprefix, hwhole, htask⟩ :=
        kernel.copyToUser_spec k (req.userBuffer.toNat + done) data
      have hstored := hprefix.length_le
      have hone : OneStored false req.remoteAddress.toNat req.userBuffer.toNat
          [.fromRemote none (req.remoteAddress.toNat + done) chunk data]
          (.toUser (req.userBuffer.toNat + done) data.length stored) [] done stored :=
        ⟨by simp [storedPiece], by simp, rfl, data, by simp [fetchedPiece, sourceBase], hprefix⟩
      have haccesses : ∀ e ∈ [Event.fromRemote none (req.remoteAddress.toNat + done) chunk data] ++
          .toUser (req.userBuffer.toNat + done) data.length stored :: [],
          e.Inside req.remoteAddress.toNat req.userBuffer.toNat req.size.toNat := by
        simp only [List.singleton_append, List.mem_cons, List.not_mem_nil, or_false,
          forall_eq_or_imp, forall_eq, Event.Inside]
        omega
      rw [if_pos hlt, hcopy]
      dsimp only
      split_ifs with hshort
      · exact .of_failed (.of_one hone (by decide) haccesses (balanced_pair rfl rfl rfl rfl)
          fun h ↦ by cases h)
      · have hall := hwhole (not_not.mp hshort)
        have htaskSize := htask (not_not.mp hshort) (by rintro rfl; exact absurd hlt (by simp))
        obtain ⟨hcopied, hended⟩ := @settle_of_pos data.length chunk (by omega)
        subst hall
        exact .of_one hone haccesses (balanced_pair rfl rfl rfl rfl) hcopied hended (by omega)
    · obtain ⟨ret, hneg, hsettle⟩ := settle_of_nonpos (Int.not_lt.mp hlt) chunk
      rw [if_neg hlt, hsettle]
      refine .of_failed (.of_quiet hneg ?_ (balanced_single rfl rfl) (by simp [storedPiece]))
      simp only [List.mem_singleton, forall_eq, Event.Inside]
      omega

/-- The accesses of a turn to physical memory stay in the page that is mapped. -/
theorem inPage_of_chunk {phys chunk : ℕ} (hchunk : chunk ≤ pageSize - phys % pageSize) :
    ∃ page, some (phys - phys % pageSize) = some page ∧ pageSize ∣ page ∧ page ≤ phys ∧
      phys + chunk ≤ page + pageSize := by
  have hmod := Nat.mod_lt phys (show 0 < pageSize by decide)
  have hle := Nat.mod_le phys pageSize
  exact ⟨_, rfl, Nat.dvd_sub_mod phys, Nat.sub_le _ _, by omega⟩

theorem physicalCopy_spec (kernel : Kernel) (write : Bool) (k : ℕ)
    {remote user size done chunk : ℕ} (hpos : 0 < chunk) (hsize : done + chunk ≤ size)
    (hchunk : chunk ≤ pageSize - (remote + done) % pageSize) :
    TurnSpec (fun e ↦ e.Inside remote user size ∧ e.InPage) write remote user size kernel.taskSize
      done (physicalCopy kernel write k (remote + done) (user + done)
        (remote + done - (remote + done) % pageSize) chunk hpos) := by
  have hinPage := inPage_of_chunk hchunk
  have hsmall : chunk ≤ chunkSize := by
    have : pageSize ≤ chunkSize := by decide
    omega
  unfold physicalCopy
  generalize remote + done - (remote + done) % pageSize = page at hinPage
  cases write with
  | true =>
    simp only [if_true]
    split_ifs with hmapped
    · exact .of_failed (.of_quiet (by decide) (by simp) Holdings.balanced_nil (by simp))
    · rcases kernel.memdupUser_spec k (user + done) chunk with
        ⟨copying, ret, hcopy, hneg, hbalanced, hcopying⟩ | ⟨data, hcopy, hdata, htask⟩
      · rw [hcopy]
        have hevents : ∀ e ∈ [Event.acquire (.mapping page)] ++ copying ++
              [.release (.mapping page)],
            (∃ r, e = .acquire r ∨ e = .release r) ∨
              ∃ data : List UInt8, e = .fromUser (user + done) chunk data ∧ data.length ≤ chunk := by
          intro e he
          simp only [List.mem_append, List.mem_singleton] at he
          rcases he with (rfl | he) | rfl
          · exact .inl ⟨_, .inl rfl⟩
          · exact hcopying e he
          · exact .inl ⟨_, .inr rfl⟩
        refine .of_failed (.of_quiet hneg ?_ (Holdings.Balanced.bracket rfl rfl rfl hbalanced) ?_)
        · intro e he
          rcases hevents e he with ⟨r, rfl | rfl⟩ | ⟨data, rfl, hdata⟩
          · exact ⟨trivial, trivial⟩
          · exact ⟨trivial, trivial⟩
          · refine ⟨?_, trivial⟩
            simp only [Event.Inside]
            omega
        · intro e he
          rcases hevents e he with ⟨r, rfl | rfl⟩ | ⟨data, rfl, -⟩ <;> rfl
      · rw [hcopy]
        have hone : OneStored true remote user
            [.acquire (.mapping page), .acquire (.buffer chunk), .fromUser (user + done) chunk data]
            (.toRemote (some page) (remote + done) chunk data)
            [.release (.buffer chunk), .release (.mapping page)] done data :=
          ⟨by simp [storedPiece], by simp [storedPiece], rfl, data,
            by simp [fetchedPiece, sourceBase], List.prefix_rfl⟩
        have htaskSize := htask hpos
        refine .of_one hone ?_ ?_ hdata.symm (by simp) (by omega)
        · simp only [List.cons_append, List.nil_append, List.mem_cons, List.not_mem_nil, or_false,
            forall_eq_or_imp, forall_eq, Event.Inside, Event.InPage, and_true, true_and]
          exact ⟨by omega, by omega, hinPage⟩
        · exact Holdings.Balanced.bracket rfl rfl rfl
            (Holdings.Balanced.bracket rfl rfl rfl (balanced_pair rfl rfl rfl rfl))
  | false =>
    obtain ⟨data, hread, hdata⟩ := kernel.memcpyFromio_spec k page (remote + done) chunk
    obtain ⟨stored, left, hcopy, hprefix, hwhole, htask⟩ :=
      kernel.copyToUser_spec k (user + done) data
    have hstored := hprefix.length_le
    have hone : OneStored false remote user
        [.acquire (.mapping page), .acquire (.buffer chunk),
          .fromRemote (some page) (remote + done) chunk data]
        (.toUser (user + done) data.length stored)
        [.release (.buffer chunk), .release (.mapping page)] done stored :=
      ⟨by simp [storedPiece], by simp [storedPiece], rfl, data,
        by simp [fetchedPiece, sourceBase], hprefix⟩
    have haccesses : ∀ e ∈ [Event.acquire (.mapping page), .acquire (.buffer chunk),
          .fromRemote (some page) (remote + done) chunk data] ++
        .toUser (user + done) data.length stored ::
          [.release (.buffer chunk), .release (.mapping page)],
        e.Inside remote user size ∧ e.InPage := by
      simp only [List.cons_append, List.nil_append, List.mem_cons, List.not_mem_nil, or_false,
        forall_eq_or_imp, forall_eq, Event.Inside, Event.InPage, and_true, true_and]
      exact ⟨⟨by omega, hinPage⟩, by omega⟩
    have hbalanced : holdings.Balanced ([.acquire (.mapping page), .acquire (.buffer chunk),
          .fromRemote (some page) (remote + done) chunk data] ++
        .toUser (user + done) data.length stored ::
          [.release (.buffer chunk), .release (.mapping page)]) :=
      Holdings.Balanced.bracket rfl rfl rfl
        (Holdings.Balanced.bracket rfl rfl rfl (balanced_pair rfl rfl rfl rfl))
    simp only [Bool.false_eq_true, if_false, hread, hcopy]
    split_ifs with hmapped hbuffer hshort
    · exact .of_failed (.of_quiet (by decide) (by simp) Holdings.balanced_nil (by simp))
    · refine .of_failed (.of_quiet (by decide) ?_
        (Holdings.Balanced.bracket rfl rfl rfl Holdings.balanced_nil) (by simp [storedPiece]))
      simp [Event.Inside, Event.InPage]
    · exact .of_failed (.of_one hone (by decide) haccesses hbalanced fun h ↦ by cases h)
    · have hall := hwhole (not_not.mp hshort)
      have htaskSize := htask (not_not.mp hshort) (by rintro rfl; simp at hdata; omega)
      subst hall
      exact .of_one hone haccesses hbalanced hdata.symm (by simp) (by omega)

theorem physicalTurn_spec (kernel : Kernel) (req : PhysRequest) (write : Bool)
    (hremote : req.physicalAddress.toNat + req.size.toNat < sizeModulus)
    (huser : req.userBuffer.toNat + req.size.toNat < sizeModulus) (k done : ℕ)
    (hdone : done < req.size.toNat) :
    TurnSpec
      (fun e ↦ e.Inside req.physicalAddress.toNat req.userBuffer.toNat req.size.toNat ∧ e.InPage)
      write req.physicalAddress.toNat req.userBuffer.toNat req.size.toNat kernel.taskSize done
      (physicalTurn kernel req write k done hdone) := by
  unfold physicalTurn
  simp only [mod_of_range hremote hdone, mod_of_range huser hdone]
  exact physicalCopy_spec kernel write k _ (by omega) (Nat.min_le_left _ _)

/-! ### The functions -/

/-- The loop of `cecore_access_process_vm` is reached. -/
structure MemRequest.Loops (kernel : Kernel) (req : MemRequest) : Prop where
  given : req.pid ≠ 0 ∧ req.remoteAddress ≠ 0 ∧ req.userBuffer ≠ 0 ∧ req.size ≠ 0
  remote : req.remoteAddress.toNat + req.size.toNat < sizeModulus
  user : req.userBuffer.toNat + req.size.toNat < sizeModulus
  buffer : kernel.kmallocFirst
  task : kernel.getPidTask

/-- The loop of `cecore_access_physical` is reached. -/
structure PhysRequest.Loops (req : PhysRequest) : Prop where
  given : req.userBuffer ≠ 0 ∧ req.size ≠ 0
  remote : req.physicalAddress.toNat + req.size.toNat < sizeModulus
  user : req.userBuffer.toNat + req.size.toNat < sizeModulus

/-- What a function does whose loop is reached if `loops` holds. In front of the loop nothing is
copied and `bytes_transferred` is left as it was. -/
structure Transfers (P : Event → Prop) (write : Bool) (remote user size : ℕ) (loops : Prop)
    (unset : BitVec 64) (out : Outcome) : Prop where
  moved : loops → Moved P write remote user size out.bytesTransferred out.log
  returned : loops →
    if out.bytesTransferred = 0 then out.result ≤ 0 else out.result = out.bytesTransferred
  early : ¬loops → out.bytesTransferred = unset.toNat ∧ out.result ≤ 0 ∧
    holdings.Balanced out.log ∧ ∀ e ∈ out.log, ∃ r, e = .acquire r ∨ e = .release r

theorem Transfers.of_early {P : Event → Prop} {write : Bool} {remote user size : ℕ} {loops : Prop}
    {unset : BitVec 64} {log : List Event} {result : ℤ} (hloops : ¬loops) (hresult : result ≤ 0)
    (hbalanced : holdings.Balanced log) (hlog : ∀ e ∈ log, ∃ r, e = .acquire r ∨ e = .release r) :
    Transfers P write remote user size loops unset ⟨log, unset.toNat, result⟩ where
  moved h := absurd h hloops
  returned h := absurd h hloops
  early _ := ⟨rfl, hresult, hbalanced, hlog⟩

theorem range_of_not_wrap {first size : BitVec 64} (h : ¬first + size < first) :
    first.toNat + size.toNat < sizeModulus := by
  rw [BitVec.lt_def, BitVec.toNat_add] at h
  have := first.isLt
  have := size.isLt
  unfold sizeModulus
  omega

theorem not_wrap_of_range {first size : BitVec 64}
    (h : first.toNat + size.toNat < sizeModulus) : ¬first + size < first := by
  unfold sizeModulus at h
  rw [BitVec.lt_def, BitVec.toNat_add]
  omega

/-- The two ends of a function around its loop. -/
theorem Moved.bracket {P : Event → Prop} {write : Bool} {remote user size count : ℕ}
    {log : List Event} (h : Moved P write remote user size count log) {r : Resource}
    (hacquire : P (.acquire r)) (hrelease : P (.release r)) :
    Moved P write remote user size count (.acquire r :: (log ++ [.release r])) := by
  have hstored : ∀ r, storedPiece write (.acquire r) = none := fun _ ↦ rfl
  have hstored' : ∀ r, storedPiece write (.release r) = none := fun _ ↦ rfl
  refine ⟨h.bounded, ?_, Holdings.Balanced.bracket rfl rfl rfl h.balanced, ?_, ?_⟩
  · intro e he
    simp only [List.mem_cons, List.mem_append, List.not_mem_nil, or_false] at he
    rcases he with rfl | he | rfl
    · exact hacquire
    · exact h.accesses e he
    · exact hrelease
  · rw [List.filterMap_cons_none (hstored r), List.filterMap_append,
      List.filterMap_cons_none (hstored' r), List.filterMap_nil, List.append_nil]
    exact h.stored
  · rw [← List.singleton_append]
    exact (sourced_of_quiet (by simp [storedPiece])).append
      (h.sourced.append (sourced_of_quiet (by simp [storedPiece])))

theorem toNat_pos {base : BitVec 64} (h : ¬base = 0) : 0 < base.toNat :=
  Nat.pos_of_ne_zero fun hzero ↦ h (BitVec.eq_of_toNat_eq hzero)

theorem Transfers.of_run {P : Event → Prop} {write : Bool} {remote user size done : ℕ}
    {loops : Prop} {unset : BitVec 64} {log : List Event} {ret : ℤ} (kernel : Kernel)
    (hloops : loops) (hmoved : Moved P write remote user size done log) (hret : ret ≤ 0)
    (htask : done ≠ 0 → user + done ≤ kernel.taskSize) (huser : 0 < user) :
    Transfers P write remote user size loops unset (.ofLoop log done ret) where
  moved _ := hmoved
  returned _ := by
    unfold Outcome.ofLoop
    dsimp only
    split_ifs with hzero hne
    · exact absurd hzero hne
    · exact hret
    · have hle := htask hzero
      have hbound := kernel.taskSize_le
      rw [ssize, if_pos (by omega)]
  early h := absurd hloops h

theorem accessProcessVm_transfers (kernel : Kernel) (req : MemRequest) (write : Bool) :
    Transfers (Event.Inside req.remoteAddress.toNat req.userBuffer.toNat req.size.toNat) write
      req.remoteAddress.toNat req.userBuffer.toNat req.size.toNat (req.Loops kernel)
      req.bytesTransferred (accessProcessVm kernel req write) := by
  unfold accessProcessVm
  dsimp only
  split_ifs with hgiven hsize hwrap hbuffer htask
  · refine .of_early (fun h ↦ ?_) (by decide) Holdings.balanced_nil (by simp)
    rcases hgiven with h0 | h0 | h0
    · exact h.given.1 h0
    · exact h.given.2.1 h0
    · exact h.given.2.2.1 h0
  · exact .of_early (fun h ↦ h.given.2.2.2 hsize) (Int.le_refl 0) Holdings.balanced_nil (by simp)
  · refine .of_early (fun h ↦ ?_) (by decide) Holdings.balanced_nil (by simp)
    rcases hwrap with hwrap | hwrap
    · exact not_wrap_of_range h.remote hwrap
    · exact not_wrap_of_range h.user hwrap
  · refine .of_early (fun h ↦ ?_) (by decide) Holdings.balanced_nil (by simp)
    rw [h.buffer] at hbuffer
    cases hbuffer
  · refine .of_early (fun h ↦ ?_) (by decide)
      (Holdings.Balanced.bracket rfl rfl rfl Holdings.balanced_nil) (by simp)
    rw [h.task] at htask
    cases htask
  · obtain ⟨hremote, huser⟩ := not_or.mp hwrap
    obtain ⟨hpid, haddress, hbase⟩ := by simpa only [not_or] using hgiven
    have hloops : req.Loops kernel :=
      ⟨⟨hpid, haddress, hbase, hsize⟩, range_of_not_wrap hremote, range_of_not_wrap huser,
        by simpa using hbuffer, by simpa using htask⟩
    obtain ⟨hmoved, hret, hbound⟩ := run_moved fun k done h ↦
      processTurn_spec kernel req write hloops.remote hloops.user k done h
    refine .of_run kernel hloops ?_ hret hbound (toNat_pos hbase)
    simpa using (hmoved.bracket (r := .task req.pid) trivial trivial).bracket
      (r := .buffer chunkSize) trivial trivial

theorem accessPhysical_transfers (kernel : Kernel) (req : PhysRequest) (write : Bool) :
    Transfers
      (fun e ↦ e.Inside req.physicalAddress.toNat req.userBuffer.toNat req.size.toNat ∧ e.InPage)
      write req.physicalAddress.toNat req.userBuffer.toNat req.size.toNat req.Loops
      req.bytesTransferred (accessPhysical kernel req write) := by
  unfold accessPhysical
  dsimp only
  split_ifs with hgiven hsize hwrap
  · exact .of_early (fun h ↦ h.given.1 hgiven) (by decide) Holdings.balanced_nil (by simp)
  · exact .of_early (fun h ↦ h.given.2 hsize) (Int.le_refl 0) Holdings.balanced_nil (by simp)
  · refine .of_early (fun h ↦ ?_) (by decide) Holdings.balanced_nil (by simp)
    rcases hwrap with hwrap | hwrap
    · exact not_wrap_of_range h.remote hwrap
    · exact not_wrap_of_range h.user hwrap
  · obtain ⟨hremote, huser⟩ := not_or.mp hwrap
    have hloops : req.Loops :=
      ⟨⟨hgiven, hsize⟩, range_of_not_wrap hremote, range_of_not_wrap huser⟩
    obtain ⟨hmoved, hret, hbound⟩ := run_moved fun k done h ↦
      physicalTurn_spec kernel req write hloops.remote hloops.user k done h
    exact .of_run kernel hloops hmoved hret hbound (toNat_pos hgiven)

/-- Both functions, in both directions, end for every request and whatever the kernel answers. They
access the ranges of the request only, physical memory page by page, give back what they take, and
count what was copied from the front on without a fault; a negative number is returned only if
nothing was counted. -/
theorem access_transfers (kernel : Kernel) (write : Bool) :
    (∀ req : MemRequest,
      Transfers (Event.Inside req.remoteAddress.toNat req.userBuffer.toNat req.size.toNat) write
        req.remoteAddress.toNat req.userBuffer.toNat req.size.toNat (req.Loops kernel)
        req.bytesTransferred (accessProcessVm kernel req write)) ∧
    ∀ req : PhysRequest,
      Transfers
        (fun e ↦ e.Inside req.physicalAddress.toNat req.userBuffer.toNat req.size.toNat ∧ e.InPage)
        write req.physicalAddress.toNat req.userBuffer.toNat req.size.toNat req.Loops
        req.bytesTransferred (accessPhysical kernel req write) :=
  ⟨fun req ↦ accessProcessVm_transfers kernel req write,
    fun req ↦ accessPhysical_transfers kernel req write⟩

/-- A kernel under which a copy to the user faults behind three bytes. -/
def faultBehindThree : Kernel where
  taskSize := 2 ^ 47
  taskSize_le := by decide
  kmallocFirst := true
  getPidTask := true
  kmalloc _ := true
  ioremap _ := true
  userBytes _ := []
  userRoom _ := 3
  remoteBytes _ := .ok (List.replicate 8 0x90)
  remoteRoom _ := .ok 0
  physicalByte _ _ := 0x90

/-- Three bytes reach the user, and an error is returned; and a request for no bytes is done with
`bytes_transferred` as it was. -/
theorem accessProcessVm_faultBehindThree :
    ((accessProcessVm faultBehindThree ⟨1, 0x1000, 0x2000, 8, 7⟩ false).log.filterMap
          (storedPiece false) = [⟨0x2000, [0x90, 0x90, 0x90]⟩] ∧
        (accessProcessVm faultBehindThree ⟨1, 0x1000, 0x2000, 8, 7⟩ false).bytesTransferred = 0 ∧
        (accessProcessVm faultBehindThree ⟨1, 0x1000, 0x2000, 8, 7⟩ false).result = -efault) ∧
      (accessProcessVm faultBehindThree ⟨1, 0x1000, 0x2000, 0, 7⟩ false).log = [] ∧
      (accessProcessVm faultBehindThree ⟨1, 0x1000, 0x2000, 0, 7⟩ false).bytesTransferred = 7 := by
  decide +kernel

end Cecore.Kmod
