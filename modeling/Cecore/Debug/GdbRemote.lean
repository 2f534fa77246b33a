import Cecore.Library.RunLength
import Mathlib.Data.UInt

/-!
# Packets of a GDB stub

`GdbRemoteClient::readPacket` of `gdb_remote.cpp`. The stub at the other end of the socket is not
trusted: the model leaves open what every `recv` brings, and for how long.
-/

set_option autoImplicit false
set_option relaxedAutoImplicit false

namespace Cecore.Debug

open Library.RunLength

/-- The socket of a client. -/
structure Socket where
  /-- The bytes in the order they are asked for, none where `recv` brings none. -/
  recv : ℕ → Option UInt8
  /-- Whether `send` takes a byte. -/
  sends : Bool
  /-- The text of `errno`. -/
  strerror : String

namespace GdbRemote

def dollar : UInt8 := 0x24
def hash : UInt8 := 0x23
def brace : UInt8 := 0x7d
def star : UInt8 := 0x2a

def kMaxRawPayload : ℕ := 1 <<< 20
def kMaxDecoded : ℕ := 16 <<< 20

def packetChecksum (payload : List UInt8) : UInt8 := payload.foldl (fun sum c ↦ sum + c) 0

def hexValue (c : UInt8) : Option ℕ :=
  if 0x30 ≤ c ∧ c ≤ 0x39 then some (c.toNat - 0x30)
  else if 0x61 ≤ c ∧ c ≤ 0x66 then some (c.toNat - 0x61 + 10)
  else if 0x41 ≤ c ∧ c ≤ 0x46 then some (c.toNat - 0x41 + 10)
  else none

def errnoString (socket : Socket) (what : String) : String := what ++ ": " ++ socket.strerror

/-- The loop that drops bytes up to the `$`: the position behind it. No result when `fuel` bytes
were not enough. -/
def skipToPacket (socket : Socket) : (fuel position : ℕ) → Option (Except String ℕ)
  | 0, _ => none
  | fuel + 1, position =>
    match socket.recv position with
    | none => some (.error (errnoString socket "recv"))
    | some c => if c = dollar then some (.ok (position + 1))
      else skipToPacket socket fuel (position + 1)

/-- The loop that collects `raw` up to the `#`, with `room` for more bytes. -/
def readRaw (socket : Socket) : (room position : ℕ) → Except String (List UInt8 × ℕ)
  | 0, position =>
    match socket.recv position with
    | none => .error (errnoString socket "recv")
    | some c => if c = hash then .ok ([], position + 1)
      else .error "packet exceeds maximum size"
  | room + 1, position =>
    match socket.recv position with
    | none => .error (errnoString socket "recv")
    | some c =>
      if c = hash then .ok ([], position + 1)
      else
        match readRaw socket room (position + 1) with
        | .error reason => .error reason
        | .ok (raw, behind) => .ok (c :: raw, behind)

/-- The loop that takes the escapes and the runs out of `raw`, with the payload so far. -/
def decodePayload : (raw payload : List UInt8) → Except String (List UInt8)
  | [], payload => .ok payload
  | ch :: raw, payload =>
    if ch = brace then
      match raw with
      | [] => .error "truncated escape in packet"
      | next :: raw =>
        if payload.length ≥ kMaxDecoded then .error "decoded packet exceeds maximum size"
        else decodePayload raw (payload ++ [next ^^^ 0x20])
    else if ch = star then
      match raw with
      | [] => .error "invalid run-length encoding in packet"
      | next :: raw =>
        match payload.getLast? with
        | none => .error "invalid run-length encoding in packet"
        | some prev =>
          if next.toNat < 29 then .error "invalid run-length count in packet"
          else if payload.length + (next.toNat - 29) > kMaxDecoded then
            .error "decoded packet exceeds maximum size"
          else decodePayload raw (payload ++ List.replicate (next.toNat - 29) prev)
    else if payload.length ≥ kMaxDecoded then .error "decoded packet exceeds maximum size"
    else decodePayload raw (payload ++ [ch])

/-- What `readPacket` does from the two digits of the checksum on. -/
def finishPacket (socket : Socket) (raw : List UInt8) (position : ℕ) :
    Except String (List UInt8 × ℕ) :=
  match socket.recv position, socket.recv (position + 1) with
  | some first, some second =>
    match hexValue first, hexValue second with
    | some hi, some lo =>
      if UInt8.ofNat (hi <<< 4 ||| lo) ≠ packetChecksum raw then .error "packet checksum mismatch"
      else
        match decodePayload raw [] with
        | .error reason => .error reason
        | .ok payload =>
          if socket.sends then .ok (payload, position + 2)
          else .error (errnoString socket "send")
    | _, _ => .error "invalid packet checksum"
  | _, _ => .error (errnoString socket "recv checksum")

/-- `readPacket` from a position of the byte stream on: the payload and the position behind the
packet. -/
def readPacket (socket : Socket) (fuel position : ℕ) : Option (Except String (List UInt8 × ℕ)) :=
  match skipToPacket socket fuel position with
  | none => none
  | some (.error reason) => some (.error reason)
  | some (.ok start) =>
    match readRaw socket kMaxRawPayload start with
    | .error reason => some (.error reason)
    | .ok (raw, behind) => some (finishPacket socket raw behind)

/-- The transforms of the remote serial protocol. -/
def transforms : Markers UInt8 where
  escape := brace
  star := star
  reveal disguise := disguise ^^^ 0x20
  count counter := if counter.toNat < 29 then none else some (counter.toNat - 29)
  distinct := by decide

/-! ### The transforms -/

/-- One item in front of a text: it is decoded as it says, while the payload keeps to its bound. -/
theorem decodePayload_item {item : Item UInt8} {sofar extended : List UInt8}
    (hlegal : item.Legal transforms) (hextend : item.extend transforms sofar = some extended)
    (raw : List UInt8) :
    decodePayload (item.letters transforms ++ raw) sofar =
      if extended.length ≤ kMaxDecoded then decodePayload raw extended
      else .error "decoded packet exceeds maximum size" := by
  cases item with
  | literal letter =>
    obtain ⟨hbrace, hstar⟩ := hlegal
    cases hextend
    change letter ≠ brace at hbrace
    change letter ≠ star at hstar
    change decodePayload (letter :: raw) sofar = _
    rw [decodePayload.eq_def]
    dsimp only
    rw [if_neg hbrace, if_neg hstar, List.length_append, List.length_singleton]
    by_cases hfull : sofar.length ≥ kMaxDecoded
    · rw [if_pos hfull, if_neg (by omega)]
    · rw [if_neg hfull, if_pos (by omega)]
  | escaped disguise =>
    cases hextend
    change decodePayload (brace :: disguise :: raw) sofar = _
    rw [decodePayload.eq_def]
    dsimp only
    rw [if_pos rfl, List.length_append, List.length_singleton]
    by_cases hfull : sofar.length ≥ kMaxDecoded
    · rw [if_pos hfull, if_neg (by omega)]
    · rw [if_neg hfull, if_pos (by omega)]
      rfl
  | run counter =>
    simp only [Item.extend] at hextend
    split at hextend
    · next last times hlast htimes =>
      cases hextend
      change (if counter.toNat < 29 then none else some (counter.toNat - 29)) = some times
        at htimes
      have hcount : ¬ counter.toNat < 29 := by
        intro hfew
        rw [if_pos hfew] at htimes
        cases htimes
      rw [if_neg hcount] at htimes
      cases htimes
      change decodePayload (star :: counter :: raw) sofar = _
      rw [decodePayload.eq_def]
      dsimp only
      rw [if_neg (by decide), if_pos rfl, hlast]
      dsimp only
      rw [if_neg hcount, List.length_append, List.length_replicate]
      by_cases hfull : sofar.length + (counter.toNat - 29) > kMaxDecoded
      · rw [if_pos hfull, if_neg (by omega)]
      · rw [if_neg hfull, if_pos (by omega)]
    · cases hextend

/-- A text is decoded to the payload it writes, or refused when that is too long. -/
theorem decodePayload_of_expands {sofar raw payload : List UInt8}
    (h : Expands transforms sofar raw payload) (hsofar : sofar.length ≤ kMaxDecoded) :
    decodePayload raw sofar =
      if payload.length ≤ kMaxDecoded then .ok payload
      else .error "decoded packet exceeds maximum size" := by
  obtain ⟨items, hitems, rfl, hexpand⟩ := h
  induction items generalizing sofar with
  | nil =>
    cases hexpand
    rw [if_pos hsofar]
    rfl
  | cons item items ih =>
    rw [expand] at hexpand
    split at hexpand
    · next extended hextend =>
      have hgrows := expand_length_le hexpand
      change decodePayload (item.letters transforms ++ write transforms items) sofar = _
      rw [decodePayload_item (hitems item List.mem_cons_self) hextend]
      by_cases hfits : extended.length ≤ kMaxDecoded
      · rw [if_pos hfits,
          ih hfits (fun other hother ↦ hitems other (List.mem_cons_of_mem _ hother)) hexpand]
      · rw [if_neg hfits, if_neg (by omega)]
    · cases hexpand

/-- Only what a text writes is decoded from it. -/
theorem expands_of_decodePayload {raw sofar payload : List UInt8}
    (h : decodePayload raw sofar = .ok payload) (hsofar : sofar.length ≤ kMaxDecoded) :
    Expands transforms sofar raw payload ∧ payload.length ≤ kMaxDecoded := by
  fun_induction decodePayload raw sofar with
  | case1 sofar =>
    cases h
    exact ⟨expands_nil.mpr rfl, hsofar⟩
  | case4 sofar next raw hroom ih =>
    obtain ⟨hraw, hlength⟩ := ih h (by simp; omega)
    exact ⟨expands_cons (.escaped next) trivial rfl hraw, hlength⟩
  | case9 sofar next raw prev hlast hcount hroom hne ih =>
    obtain ⟨hraw, hlength⟩ := ih h (by simp; omega)
    refine ⟨expands_cons (.run next) trivial ?_ hraw, hlength⟩
    have htimes : transforms.count next = some (next.toNat - 29) := if_neg hcount
    simp only [Item.extend, hlast, htimes]
  | case11 ch raw sofar hbrace hstar hroom ih =>
    obtain ⟨hraw, hlength⟩ := ih h (by simp; omega)
    exact ⟨expands_cons (.literal ch) ⟨hbrace, hstar⟩ rfl hraw, hlength⟩
  | _ => cases h

/-! ### The stream -/

end GdbRemote

/-- The next bytes the socket brings. -/
def Socket.Carries (socket : Socket) (position : ℕ) (bytes : List UInt8) : Prop :=
  ∀ (index : ℕ) (byte : UInt8), bytes[index]? = some byte →
    socket.recv (position + index) = some byte

/-- A socket that brings some bytes and then no more. -/
def Socket.ofBytes (bytes : List UInt8) (sends : Bool) : Socket where
  recv position := bytes[position]?
  sends := sends
  strerror := "Connection reset by peer"

theorem Socket.carries_ofBytes (bytes : List UInt8) (sends : Bool) :
    (Socket.ofBytes bytes sends).Carries 0 bytes := by
  intro index byte hbyte
  rw [Nat.zero_add]
  exact hbyte

theorem Socket.carries_nil (socket : Socket) (position : ℕ) : socket.Carries position [] := by
  intro index byte hbyte
  cases hbyte

theorem Socket.carries_cons {socket : Socket} {position : ℕ} {byte : UInt8} {bytes : List UInt8} :
    socket.Carries position (byte :: bytes) ↔
      socket.recv position = some byte ∧ socket.Carries (position + 1) bytes := by
  constructor
  · intro h
    refine ⟨h 0 byte rfl, ?_⟩
    intro index other hother
    have hnext := h (index + 1) other hother
    rwa [Nat.add_comm index, ← Nat.add_assoc] at hnext
  · rintro ⟨hfirst, hbytes⟩ index other hother
    cases index with
    | zero =>
      cases hother
      exact hfirst
    | succ index =>
      have hnext := hbytes index other hother
      rwa [Nat.add_assoc, Nat.add_comm 1] at hnext

namespace GdbRemote

/-- The bytes of a packet, behind bytes that are none of it. -/
def packet (junk raw : List UInt8) (first second : UInt8) : List UInt8 :=
  junk ++ dollar :: (raw ++ [hash, first, second])

/-- The two digits give the sum of the raw bytes. -/
def Checks (raw : List UInt8) (first second : UInt8) : Prop :=
  ∃ hi lo, hexValue first = some hi ∧ hexValue second = some lo ∧
    UInt8.ofNat (hi <<< 4 ||| lo) = packetChecksum raw

theorem skipToPacket_of_carries {socket : Socket} {junk rest : List UInt8} (hjunk : dollar ∉ junk)
    {fuel position : ℕ} (hfuel : junk.length < fuel)
    (h : socket.Carries position (junk ++ dollar :: rest)) :
    skipToPacket socket fuel position = some (.ok (position + junk.length + 1)) ∧
      socket.Carries (position + junk.length + 1) rest := by
  induction junk generalizing fuel position with
  | nil =>
    obtain ⟨hfirst, hrest⟩ := Socket.carries_cons.mp h
    cases fuel with
    | zero => cases hfuel
    | succ fuel =>
      refine ⟨?_, hrest⟩
      rw [skipToPacket, hfirst]
      exact if_pos rfl
  | cons byte junk ih =>
    obtain ⟨hfirst, hrest⟩ := Socket.carries_cons.mp h
    cases fuel with
    | zero => cases hfuel
    | succ fuel =>
      have hbyte : byte ≠ dollar := fun heq ↦ hjunk (heq ▸ List.mem_cons_self)
      obtain ⟨hskip, hcarries⟩ := ih (fun hmem ↦ hjunk (List.mem_cons_of_mem _ hmem))
        (Nat.lt_of_succ_lt_succ hfuel) hrest
      have hposition : position + 1 + junk.length + 1 = position + (byte :: junk).length + 1 := by
        rw [List.length_cons]
        omega
      rw [← hposition]
      refine ⟨?_, hcarries⟩
      rw [skipToPacket, hfirst]
      dsimp only
      rw [if_neg hbyte, hskip]

/-- The `$` that was found, and the bytes dropped before it. -/
theorem carries_of_skipToPacket {socket : Socket} {fuel position start : ℕ}
    (h : skipToPacket socket fuel position = some (.ok start)) :
    ∃ junk, dollar ∉ junk ∧ start = position + junk.length + 1 ∧
      ∀ rest, socket.Carries start rest → socket.Carries position (junk ++ dollar :: rest) := by
  induction fuel generalizing position with
  | zero => cases h
  | succ fuel ih =>
    rw [skipToPacket] at h
    split at h
    · cases h
    · next c hrecv =>
      split_ifs at h with hc
      · cases h
        subst hc
        refine ⟨[], List.not_mem_nil, rfl, fun rest hrest ↦ ?_⟩
        exact Socket.carries_cons.mpr ⟨hrecv, hrest⟩
      · obtain ⟨junk, hjunk, rfl, hcarries⟩ := ih h
        refine ⟨c :: junk, ?_, ?_, fun rest hrest ↦ ?_⟩
        · intro hmem
          rcases List.mem_cons.mp hmem with heq | hmem
          · exact hc heq.symm
          · exact hjunk hmem
        · rw [List.length_cons]
          omega
        · exact Socket.carries_cons.mpr ⟨hrecv, hcarries rest hrest⟩

/-- The reader of the start returns exactly when the stream ends or has a `$`. -/
theorem skipToPacket_isSome_iff {socket : Socket} {fuel position : ℕ} :
    (skipToPacket socket fuel position).isSome ↔
      ∃ count < fuel, socket.recv (position + count) = none ∨
        socket.recv (position + count) = some dollar := by
  induction fuel generalizing position with
  | zero => simp [skipToPacket]
  | succ fuel ih =>
    rw [skipToPacket]
    cases hrecv : socket.recv position with
    | none => exact ⟨fun _ ↦ ⟨0, Nat.succ_pos fuel, Or.inl hrecv⟩, fun _ ↦ rfl⟩
    | some c =>
      dsimp only
      by_cases hc : c = dollar
      · rw [if_pos hc]
        exact ⟨fun _ ↦ ⟨0, Nat.succ_pos fuel, Or.inr (hrecv.trans (congrArg some hc))⟩, fun _ ↦ rfl⟩
      · rw [if_neg hc, ih]
        constructor
        · rintro ⟨count, hcount, hend⟩
          rw [Nat.add_assoc, Nat.add_comm 1] at hend
          exact ⟨count + 1, by omega, hend⟩
        · rintro ⟨count, hcount, hend⟩
          cases count with
          | zero =>
            rw [Nat.add_zero, hrecv] at hend
            rcases hend with hend | hend
            · cases hend
            · cases hend
              exact absurd rfl hc
          | succ count =>
            rw [Nat.add_comm count, ← Nat.add_assoc] at hend
            exact ⟨count, by omega, hend⟩

theorem readRaw_of_carries {socket : Socket} {raw rest : List UInt8} (hraw : hash ∉ raw)
    {room position : ℕ} (h : socket.Carries position (raw ++ hash :: rest)) :
    readRaw socket room position = (if raw.length ≤ room then .ok (raw, position + raw.length + 1)
      else .error "packet exceeds maximum size") ∧
      socket.Carries (position + raw.length + 1) rest := by
  induction raw generalizing room position with
  | nil =>
    obtain ⟨hfirst, hrest⟩ := Socket.carries_cons.mp h
    refine ⟨?_, hrest⟩
    cases room <;> simp [readRaw, hfirst]
  | cons byte raw ih =>
    obtain ⟨hfirst, hrest⟩ := Socket.carries_cons.mp h
    have hbyte : byte ≠ hash := fun heq ↦ hraw (heq ▸ List.mem_cons_self)
    have hothers : hash ∉ raw := fun hmem ↦ hraw (List.mem_cons_of_mem _ hmem)
    have hposition : position + 1 + raw.length + 1 = position + (byte :: raw).length + 1 := by
      rw [List.length_cons]
      omega
    rw [← hposition]
    refine ⟨?_, (@ih hothers 0 (position + 1) hrest).2⟩
    cases room with
    | zero => simp [readRaw, hfirst, hbyte]
    | succ room =>
      rw [readRaw, hfirst]
      dsimp only
      rw [if_neg hbyte, (ih hothers hrest).1, List.length_cons]
      by_cases hfits : raw.length ≤ room
      · rw [if_pos hfits, if_pos (Nat.succ_le_succ hfits)]
      · rw [if_neg hfits, if_neg (fun hle ↦ hfits (Nat.le_of_succ_le_succ hle))]

/-- The `#` that was found, and the bytes collected before it. -/
theorem carries_of_readRaw {socket : Socket} {room position behind : ℕ} {raw : List UInt8}
    (h : readRaw socket room position = .ok (raw, behind)) :
    hash ∉ raw ∧ raw.length ≤ room ∧ behind = position + raw.length + 1 ∧
      ∀ rest, socket.Carries behind rest → socket.Carries position (raw ++ hash :: rest) := by
  induction room generalizing position raw with
  | zero =>
    rw [readRaw] at h
    split at h
    · cases h
    · next c hrecv =>
      split_ifs at h with hc
      cases h
      subst hc
      exact ⟨List.not_mem_nil, le_rfl, rfl,
        fun rest hrest ↦ Socket.carries_cons.mpr ⟨hrecv, hrest⟩⟩
  | succ room ih =>
    rw [readRaw] at h
    split at h
    · cases h
    · next c hrecv =>
      split_ifs at h with hc
      · cases h
        subst hc
        exact ⟨List.not_mem_nil, Nat.zero_le _, rfl,
          fun rest hrest ↦ Socket.carries_cons.mpr ⟨hrecv, hrest⟩⟩
      · split at h
        · cases h
        · next others left hothers =>
          cases h
          obtain ⟨hmem, hlength, rfl, hcarries⟩ := ih hothers
          refine ⟨?_, Nat.succ_le_succ hlength, ?_, fun rest hrest ↦ ?_⟩
          · intro hin
            rcases List.mem_cons.mp hin with heq | hin
            · exact hc heq.symm
            · exact hmem hin
          · rw [List.length_cons]
            omega
          · exact Socket.carries_cons.mpr ⟨hrecv, hcarries rest hrest⟩

/-! ### Packets -/

theorem length_packet (junk raw : List UInt8) (first second : UInt8) :
    (packet junk raw first second).length = junk.length + raw.length + 4 := by
  simp only [packet, List.length_append, List.length_cons, List.length_nil]
  omega

/-- From the digits on: the payload, when the sum is right, it keeps to its bound and the
acknowledgement is sent. -/
theorem finishPacket_of_carries {socket : Socket} {raw payload : List UInt8} {first second : UInt8}
    {position : ℕ} (hraw : Expands transforms [] raw payload)
    (h : socket.Carries position [first, second]) :
    (payload.length ≤ kMaxDecoded ∧ Checks raw first second ∧ socket.sends = true →
      finishPacket socket raw position = .ok (payload, position + 2)) ∧
    (¬ (payload.length ≤ kMaxDecoded ∧ Checks raw first second ∧ socket.sends = true) →
      ∃ reason, finishPacket socket raw position = .error reason) := by
  obtain ⟨hfirst, hrest⟩ := Socket.carries_cons.mp h
  obtain ⟨hsecond, -⟩ := Socket.carries_cons.mp hrest
  have hdecode := decodePayload_of_expands hraw (Nat.zero_le _)
  rw [finishPacket, hfirst, hsecond]
  dsimp only
  constructor
  · rintro ⟨hlength, ⟨hi, lo, hhi, hlo, hsum⟩, hsends⟩
    rw [hhi, hlo]
    dsimp only
    rw [if_neg (not_not.mpr hsum), hdecode, if_pos hlength]
    exact if_pos hsends
  · intro hnot
    split
    · next hi lo hhi hlo =>
      by_cases hsum : UInt8.ofNat (hi <<< 4 ||| lo) = packetChecksum raw
      · rw [if_neg (not_not.mpr hsum), hdecode]
        by_cases hlength : payload.length ≤ kMaxDecoded
        · rw [if_pos hlength]
          dsimp only
          rw [if_neg fun hsends ↦ hnot ⟨hlength, ⟨hi, lo, hhi, hlo, hsum⟩, hsends⟩]
          exact ⟨_, rfl⟩
        · rw [if_neg hlength]
          exact ⟨_, rfl⟩
      · rw [if_pos hsum]
        exact ⟨_, rfl⟩
    · exact ⟨_, rfl⟩

theorem carries_of_finishPacket {socket : Socket} {raw payload : List UInt8}
    {position behind : ℕ} (h : finishPacket socket raw position = .ok (payload, behind)) :
    Expands transforms [] raw payload ∧ payload.length ≤ kMaxDecoded ∧ behind = position + 2 ∧
      ∃ first second, Checks raw first second ∧ socket.Carries position [first, second] := by
  rw [finishPacket] at h
  split at h
  · next first second hfirst hsecond =>
    split at h
    · next hi lo hhi hlo =>
      by_cases hsum : UInt8.ofNat (hi <<< 4 ||| lo) = packetChecksum raw
      · rw [if_neg (not_not.mpr hsum)] at h
        split at h
        · cases h
        · next decoded hdecode =>
          split_ifs at h with hsends
          cases h
          obtain ⟨hraw, hlength⟩ := expands_of_decodePayload hdecode (Nat.zero_le _)
          refine ⟨hraw, hlength, rfl, first, second, ⟨hi, lo, hhi, hlo, hsum⟩, ?_⟩
          exact Socket.carries_cons.mpr
            ⟨hfirst, Socket.carries_cons.mpr ⟨hsecond, socket.carries_nil _⟩⟩
      · rw [if_pos hsum] at h
        cases h
    · cases h
  · cases h

/-- A packet is read up to its digits, or is too long. -/
theorem readPacket_of_carries {socket : Socket} {junk raw : List UInt8} {first second : UInt8}
    {fuel position : ℕ} (hjunk : dollar ∉ junk) (hraw : hash ∉ raw)
    (h : socket.Carries position (packet junk raw first second)) (hfuel : junk.length < fuel) :
    readPacket socket fuel position = some (if raw.length ≤ kMaxRawPayload
        then finishPacket socket raw (position + junk.length + 1 + raw.length + 1)
        else .error "packet exceeds maximum size") ∧
      socket.Carries (position + junk.length + 1 + raw.length + 1) [first, second] := by
  obtain ⟨hskip, hbody⟩ := skipToPacket_of_carries hjunk hfuel h
  obtain ⟨hread, hdigits⟩ := @readRaw_of_carries _ _ _ hraw kMaxRawPayload _ hbody
  refine ⟨?_, hdigits⟩
  rw [readPacket, hskip]
  dsimp only
  rw [hread]
  split_ifs <;> rfl

theorem readPacket_isSome_iff {socket : Socket} {fuel position : ℕ} :
    (readPacket socket fuel position).isSome ↔
      ∃ count < fuel, socket.recv (position + count) = none ∨
        socket.recv (position + count) = some dollar := by
  rw [← skipToPacket_isSome_iff, readPacket]
  split
  · next hskip => simp [hskip]
  · next reason hskip => simp [hskip]
  · next start hskip =>
    rw [hskip]
    split <;> simp

/-- A packet that is read brings exactly the payload its text writes, and it is read if its sum is
right, it keeps to both bounds and the acknowledgement can be sent. Nothing else is read as a
packet, and on every stream that ends or has a `$` the reader comes to a payload within its bound or
to an error. -/
theorem readPacket_exact (socket : Socket) (position : ℕ) :
    (∀ junk raw payload first second fuel, dollar ∉ junk → hash ∉ raw →
      Expands transforms [] raw payload →
      socket.Carries position (packet junk raw first second) → junk.length < fuel →
      (raw.length ≤ kMaxRawPayload ∧ payload.length ≤ kMaxDecoded ∧ Checks raw first second ∧
          socket.sends = true →
        readPacket socket fuel position =
          some (.ok (payload, position + (packet junk raw first second).length))) ∧
      (¬ (raw.length ≤ kMaxRawPayload ∧ payload.length ≤ kMaxDecoded ∧ Checks raw first second ∧
          socket.sends = true) →
        ∃ reason, readPacket socket fuel position = some (.error reason))) ∧
    (∀ fuel payload behind, readPacket socket fuel position = some (.ok (payload, behind)) →
      payload.length ≤ kMaxDecoded ∧
      ∃ junk raw first second, dollar ∉ junk ∧ hash ∉ raw ∧ raw.length ≤ kMaxRawPayload ∧
        Expands transforms [] raw payload ∧ Checks raw first second ∧
        socket.Carries position (packet junk raw first second) ∧
        behind = position + (packet junk raw first second).length) ∧
    (∀ fuel, (readPacket socket fuel position).isSome ↔
      ∃ count < fuel, socket.recv (position + count) = none ∨
        socket.recv (position + count) = some dollar) := by
  refine ⟨?_, ?_, fun fuel ↦ readPacket_isSome_iff⟩
  · intro junk raw payload first second fuel hjunk hraw hexpands hcarries hfuel
    obtain ⟨hread, hdigits⟩ := readPacket_of_carries hjunk hraw hcarries hfuel
    obtain ⟨haccept, hrefuse⟩ := finishPacket_of_carries hexpands hdigits
    rw [hread, length_packet]
    by_cases hroom : raw.length ≤ kMaxRawPayload
    · rw [if_pos hroom]
      constructor
      · rintro ⟨-, hrest⟩
        rw [haccept hrest]
        congr 3
        omega
      · intro hnot
        obtain ⟨reason, hreason⟩ := hrefuse fun hrest ↦ hnot ⟨hroom, hrest⟩
        exact ⟨reason, congrArg some hreason⟩
    · rw [if_neg hroom]
      exact ⟨fun hall ↦ absurd hall.1 hroom, fun _ ↦ ⟨_, rfl⟩⟩
  · intro fuel payload behind h
    rw [readPacket] at h
    split at h
    · cases h
    · cases h
    · next start hskip =>
      split at h
      · cases h
      · next raw digits hread =>
        obtain ⟨junk, hjunk, rfl, hstart⟩ := carries_of_skipToPacket hskip
        obtain ⟨hraw, hroom, rfl, hbody⟩ := carries_of_readRaw hread
        obtain ⟨hexpands, hlength, rfl, first, second, hchecks, hdigits⟩ :=
          carries_of_finishPacket (Option.some.inj h)
        refine ⟨hlength, junk, raw, first, second, hjunk, hraw, hroom, hexpands, hchecks,
          hstart _ (hbody _ hdigits), ?_⟩
        rw [length_packet]
        omega

/-- A byte of noise, then a run and an escape. -/
theorem readPacket_exact_run :
    readPacket (Socket.ofBytes
        (packet [0x2b] [0x30, 0x2a, 0x20, 0x7d, 0x5d] 0x35 0x34) true) 2 0 =
      some (.ok ([0x30, 0x30, 0x30, 0x30, 0x7d], 10)) := by
  have hexpands : Expands transforms [] [0x30, 0x2a, 0x20, 0x7d, 0x5d]
      [0x30, 0x30, 0x30, 0x30, 0x7d] :=
    ⟨[.literal 0x30, .run 0x20, .escaped 0x5d], by decide, rfl, by decide⟩
  exact ((readPacket_exact _ 0).1 [0x2b] _ _ 0x35 0x34 2 (by decide) (by decide) hexpands
    (Socket.carries_ofBytes _ true) (by decide)).1
    ⟨by decide, by decide, ⟨5, 4, by decide, by decide, by decide⟩, rfl⟩

/-- A zero, and runs that each add 226 more. -/
def zeroRuns (runs : ℕ) : List UInt8 := 0 :: (List.replicate runs [star, 0xff]).flatten

theorem expands_runs (runs sofar : ℕ) :
    Expands transforms (List.replicate (sofar + 1) 0) (List.replicate runs [star, 0xff]).flatten
      (List.replicate (sofar + 1 + 226 * runs) 0) := by
  induction runs generalizing sofar with
  | zero => exact expands_nil.mpr rfl
  | succ runs ih =>
    have hnext := ih (sofar + 226)
    have hextend : (Item.run 0xff).extend transforms (List.replicate (sofar + 1) (0 : UInt8)) =
        some (List.replicate (sofar + 226 + 1) 0) := by
      have hlast : (List.replicate (sofar + 1) (0 : UInt8)).getLast? = some 0 := by
        simp [List.getLast?_replicate]
      have hcount : transforms.count 0xff = some 226 := by decide
      simp only [Item.extend, hlast, hcount, List.replicate_append_replicate]
    have hlength : sofar + 226 + 1 + 226 * runs = sofar + 1 + 226 * (runs + 1) := by omega
    rw [hlength] at hnext
    exact expands_cons (.run 0xff) trivial hextend hnext

theorem expands_zeroRuns (runs : ℕ) :
    Expands transforms [] (zeroRuns runs) (List.replicate (1 + 226 * runs) 0) :=
  expands_cons (.literal 0) ⟨by decide, by decide⟩ rfl (by simpa using expands_runs runs 0)

theorem foldl_runs (runs : ℕ) (sum : UInt8) :
    (List.replicate runs [star, 0xff]).flatten.foldl (fun sum c ↦ sum + c) sum =
      sum + UInt8.ofNat (41 * runs) := by
  induction runs generalizing sum with
  | zero => simp
  | succ runs ih =>
    have hstep : star + 0xff = UInt8.ofNat 41 := by decide
    have hsplit : UInt8.ofNat (41 * (runs + 1)) = UInt8.ofNat 41 + UInt8.ofNat (41 * runs) := by
      rw [← UInt8.ofNat_add]
      congr 1
      omega
    rw [List.replicate_succ, List.flatten_cons, List.foldl_append, ih, hsplit]
    change sum + star + 0xff + _ = _
    rw [UInt8.add_assoc sum, hstep, UInt8.add_assoc]

theorem packetChecksum_zeroRuns (runs : ℕ) :
    packetChecksum (zeroRuns runs) = UInt8.ofNat (41 * runs) := by
  have hfold := foldl_runs runs (0 + 0)
  rwa [UInt8.add_zero, UInt8.zero_add] at hfold

theorem hash_not_mem_zeroRuns (runs : ℕ) : hash ∉ zeroRuns runs := by
  intro hmem
  rcases List.mem_cons.mp hmem with hzero | hmem
  · cases hzero
  · obtain ⟨run, hrun, hmem⟩ := List.mem_flatten.mp hmem
    rw [List.eq_of_mem_replicate hrun] at hmem
    exact absurd hmem (by decide)

theorem length_zeroRuns (runs : ℕ) : (zeroRuns runs).length = 1 + 2 * runs := by
  simp [zeroRuns]
  omega

theorem expands_zeros (letters : ℕ) :
    Expands transforms [] (List.replicate letters 0) (List.replicate letters 0) := by
  have hzeros : ∀ sofar, Expands transforms (List.replicate sofar (0 : UInt8))
      (List.replicate letters 0) (List.replicate (sofar + letters) 0) := by
    induction letters with
    | zero => exact fun sofar ↦ expands_nil.mpr rfl
    | succ letters ih =>
      intro sofar
      have hnext := ih (sofar + 1)
      rw [Nat.add_assoc, Nat.add_comm 1] at hnext
      refine expands_cons (.literal 0) ⟨by decide, by decide⟩ ?_ hnext
      exact congrArg some (List.replicate_succ' ..).symm
  simpa using hzeros 0

theorem packetChecksum_zeros (letters : ℕ) : packetChecksum (List.replicate letters 0) = 0 := by
  induction letters with
  | zero => rfl
  | succ letters ih =>
    rw [packetChecksum, List.replicate_succ, List.foldl_cons, UInt8.add_zero]
    exact ih

/-- The reader waits without end for a `$` that does not come, it refuses a text and a payload that
are too long although they are right, and a packet that it cannot acknowledge. -/
theorem readPacket_limits :
    (∀ fuel, readPacket ⟨fun _ ↦ some 0, true, ""⟩ fuel 0 = none) ∧
    (Checks (List.replicate (2 ^ 20 + 1) 0) 0x30 0x30 ∧
      Expands transforms [] (List.replicate (2 ^ 20 + 1) 0) (List.replicate (2 ^ 20 + 1) 0) ∧
      readPacket (Socket.ofBytes (packet [] (List.replicate (2 ^ 20 + 1) 0) 0x30 0x30) true) 1 0 =
        some (.error "packet exceeds maximum size")) ∧
    (Checks (zeroRuns 74240) 0x30 0x30 ∧
      Expands transforms [] (zeroRuns 74240) (List.replicate 16778241 0) ∧
      ∃ reason, readPacket (Socket.ofBytes (packet [] (zeroRuns 74240) 0x30 0x30) true) 1 0 =
        some (.error reason)) ∧
    (Checks [] 0x30 0x30 ∧ Expands transforms [] [] [] ∧
      readPacket (Socket.ofBytes (packet [] [] 0x30 0x30) false) 1 0 =
        some (.error "send: Connection reset by peer")) := by
  refine ⟨?_, ⟨⟨0, 0, by decide, by decide, ?_⟩, expands_zeros _, ?_⟩,
    ⟨⟨0, 0, by decide, by decide, ?_⟩, expands_zeroRuns 74240, ?_⟩,
    ⟨0, 0, by decide, by decide, by decide⟩, expands_nil.mpr rfl, by decide⟩
  · intro fuel
    have hnever := (@readPacket_isSome_iff ⟨fun _ ↦ some 0, true, ""⟩ fuel 0).not
    simpa [dollar] using hnever
  · rw [packetChecksum_zeros]
    decide
  · have hmem : hash ∉ List.replicate (2 ^ 20 + 1) 0 := fun hmem ↦
      absurd (List.eq_of_mem_replicate hmem) (by decide)
    have hlength : ¬ (List.replicate (2 ^ 20 + 1) (0 : UInt8)).length ≤ kMaxRawPayload := by
      rw [List.length_replicate]
      decide
    rw [(readPacket_of_carries List.not_mem_nil hmem (Socket.carries_ofBytes _ true)
      Nat.one_pos).1, if_neg hlength]
  · rw [packetChecksum_zeroRuns]
    decide
  · obtain ⟨hread, hcarries⟩ := readPacket_of_carries List.not_mem_nil
      (hash_not_mem_zeroRuns 74240) (Socket.carries_ofBytes _ true) Nat.one_pos
    have hlength : (zeroRuns 74240).length ≤ kMaxRawPayload := by
      rw [length_zeroRuns]
      decide
    rw [if_pos hlength] at hread
    obtain ⟨reason, hreason⟩ :=
      (finishPacket_of_carries (expands_zeroRuns 74240) hcarries).2 fun hall ↦ by
        have hbound := hall.1
        rw [List.length_replicate] at hbound
        exact absurd hbound (by decide)
    exact ⟨reason, hread.trans (congrArg some hreason)⟩

end GdbRemote

end Cecore.Debug
