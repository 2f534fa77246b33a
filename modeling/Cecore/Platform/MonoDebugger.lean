import Cecore.Debug.GdbRemote
import Cecore.Library.LittleEndian

/-!
# Commands to a Mono debug agent

`MonoDebuggerClient::sendCommand`. The agent sends events when it likes, and replies; each packet
begins with its length, an identifier and flags. A command reads packets until the reply with its
own identifier, or until it has seen too many.
-/

set_option autoImplicit false
set_option relaxedAutoImplicit false

namespace Cecore.Platform

open Library.LittleEndian Debug

namespace MonoDebugger

/-! ### The client -/

def kMaxMonoReply : ℕ := 1 <<< 28

/-- `loadBe32` and `loadBe16`, by the number of bytes. -/
def loadBe (bytes : List UInt8) : ℕ := leNat bytes.reverse

/-- `storeBe32` and `storeBe16`. -/
def storeBe (width value : ℕ) : List UInt8 := (toLE width value).reverse

/-- `recvAll`: the next bytes, and how far it came. -/
def recvAll (socket : Socket) : (position n : ℕ) → Except String (List UInt8) × ℕ
  | position, 0 => (.ok [], position)
  | position, n + 1 =>
    match socket.recv position with
    | none => (.error ("recv: " ++ socket.strerror), position)
    | some byte =>
      match recvAll socket (position + 1) n with
      | (.error err, stopped) => (.error err, stopped)
      | (.ok bytes, behind) => (.ok (byte :: bytes), behind)

/-- The loop over the packets, with `guard` of them left: the body of the reply, or why there is
none, and how far it came. -/
def readReply (socket : Socket) (id : UInt32) :
    (guard position : ℕ) → Except String (List UInt8) × ℕ
  | 0, position => (.error "no matching reply after draining agent events", position)
  | guard + 1, position =>
    match recvAll socket position 11 with
    | (.error err, stopped) => (.error ("recv hdr: " ++ err), stopped)
    | (.ok hdr, behind) =>
      let replyLen := loadBe (hdr.take 4)
      let replyId := loadBe ((hdr.drop 4).take 4)
      let flags := hdr.getD 8 0
      let errCode := loadBe (hdr.drop 9)
      if replyLen < 11 ∨ kMaxMonoReply < replyLen then (.error "reply length out of range", behind)
      else
        match recvAll socket behind (replyLen - 11) with
        | (.error err, stopped) => (.error ("recv body: " ++ err), stopped)
        | (.ok body, behind) =>
          if flags &&& 0x80 = 0 ∨ replyId ≠ id.toNat then readReply socket id guard behind
          else if errCode ≠ 0 then (.error ("mono agent error " ++ toString errCode), behind)
          else (.ok body, behind)

structure Command where
  cmdset : UInt8
  cmd : UInt8
  payload : List UInt8
  deriving DecidableEq, Repr

/-- The client, and where it is in what the agent sends. -/
structure Client where
  connected : Bool
  nextPacketId : UInt32
  position : ℕ
  /-- The packets it has sent. -/
  sent : List (List UInt8)
  deriving DecidableEq, Repr

def commandPacket (id : UInt32) (command : Command) : List UInt8 :=
  storeBe 4 (11 + command.payload.length) ++ storeBe 4 id.toNat ++
    [0, command.cmdset, command.cmd] ++ command.payload

def Client.sendCommand (socket : Socket) (client : Client) (command : Command) :
    Except String (List UInt8) × Client :=
  if !client.connected then (.error "not connected", client)
  else
    let id := client.nextPacketId
    let client := { client with nextPacketId := id + 1 }
    if !socket.sends then (.error ("send: send: " ++ socket.strerror), client)
    else
      let (reply, position) := readReply socket id 4096 client.position
      (reply, { client with
        position := position
        sent := client.sent ++ [commandPacket id command] })

/-- Commands one after the other. -/
def Client.sendCommands (socket : Socket) (client : Client) :
    List Command → List (Except String (List UInt8)) × Client
  | [] => ([], client)
  | command :: rest =>
    let (result, client) := client.sendCommand socket command
    let (results, client) := client.sendCommands socket rest
    (result :: results, client)

/-! ### The agent -/

/-- A packet of the agent, not too long; `code` is an error code, or what kind of event it is. -/
structure Packet where
  id : UInt32
  flags : UInt8
  code : UInt16
  body : List UInt8
  length_le : 11 + body.length ≤ kMaxMonoReply

def Packet.header (packet : Packet) : List UInt8 :=
  storeBe 4 (11 + packet.body.length) ++ storeBe 4 packet.id.toNat ++ [packet.flags] ++
    storeBe 2 packet.code.toNat

def Packet.bytes (packet : Packet) : List UInt8 := packet.header ++ packet.body

/-- A reply to the command with this identifier, no event and no other's. -/
def Packet.Answers (packet : Packet) (id : UInt32) : Prop :=
  packet.flags &&& 0x80 ≠ 0 ∧ packet.id = id

instance (packet : Packet) (id : UInt32) : Decidable (packet.Answers id) :=
  inferInstanceAs (Decidable (_ ∧ _))

/-- What a reply says. -/
def Packet.answer (packet : Packet) : Except String (List UInt8) :=
  if packet.code ≠ 0 then .error ("mono agent error " ++ toString packet.code.toNat)
  else .ok packet.body

/-- A command, and what the agent sends until it is answered. -/
structure Exchange where
  command : Command
  others : List Packet
  reply : Packet

def Exchange.bytes (exchange : Exchange) : List UInt8 :=
  exchange.others.flatMap Packet.bytes ++ exchange.reply.bytes

/-- Every command is answered before the bound, behind events and replies to others. -/
def Answered : (id : UInt32) → List Exchange → Prop
  | _, [] => True
  | id, exchange :: rest =>
    exchange.others.length < 4096 ∧ (∀ packet ∈ exchange.others, ¬packet.Answers id) ∧
      exchange.reply.Answers id ∧ Answered (id + 1) rest

/-! ### Bytes -/

theorem loadBe_storeBe (width value : ℕ) : loadBe (storeBe width value) = value % 256 ^ width := by
  rw [loadBe, storeBe, List.reverse_reverse, leNat_toLE]

theorem storeBe_loadBe (bytes : List UInt8) : storeBe bytes.length (loadBe bytes) = bytes := by
  have h := toLE_leNat bytes.reverse
  rw [List.length_reverse] at h
  rw [storeBe, loadBe, h, List.reverse_reverse]

@[simp] theorem length_storeBe (width value : ℕ) : (storeBe width value).length = width := by
  simp [storeBe]

theorem loadBe_lt (bytes : List UInt8) : loadBe bytes < 256 ^ bytes.length := by
  have h := leNat_lt bytes.reverse
  rwa [List.length_reverse] at h

@[simp] theorem Packet.length_header (packet : Packet) : packet.header.length = 11 := by
  simp [header]

/-- The fields of a header are read back. -/
theorem Packet.load_header (packet : Packet) :
    loadBe (packet.header.take 4) = 11 + packet.body.length ∧
      loadBe ((packet.header.drop 4).take 4) = packet.id.toNat ∧
      packet.header.getD 8 0 = packet.flags ∧
      loadBe (packet.header.drop 9) = packet.code.toNat := by
  have hlength : 11 + packet.body.length < 256 ^ 4 := by
    have h := packet.length_le
    have hmax : kMaxMonoReply < 256 ^ 4 := by decide
    omega
  have hid : packet.id.toNat < 256 ^ 4 := packet.id.toNat_lt
  have hcode : packet.code.toNat < 256 ^ 2 := packet.code.toNat_lt
  have htake : packet.header.take 4 = storeBe 4 (11 + packet.body.length) := by
    rw [header, List.append_assoc, List.append_assoc]
    exact List.take_left' (length_storeBe _ _)
  have hdrop : packet.header.drop 4 =
      storeBe 4 packet.id.toNat ++ ([packet.flags] ++ storeBe 2 packet.code.toNat) := by
    rw [header, List.append_assoc, List.append_assoc]
    exact List.drop_left' (length_storeBe _ _)
  have hmiddle : (packet.header.drop 4).take 4 = storeBe 4 packet.id.toNat := by
    rw [hdrop]
    exact List.take_left' (length_storeBe _ _)
  have hback : packet.header.drop 8 = [packet.flags] ++ storeBe 2 packet.code.toNat := by
    rw [show 8 = 4 + 4 from rfl, ← List.drop_drop, hdrop]
    exact List.drop_left' (length_storeBe _ _)
  have hflags : packet.header.getD 8 0 = packet.flags := by
    have h := congrArg (·[0]?) hback
    simp only [List.getElem?_drop, Nat.add_zero] at h
    rw [List.getD_eq_getElem?_getD, h]
    rfl
  have hlast : packet.header.drop 9 = storeBe 2 packet.code.toNat := by
    rw [show 9 = 8 + 1 from rfl, ← List.drop_drop, hback]
    rfl
  rw [htake, hmiddle, hlast, loadBe_storeBe, loadBe_storeBe, loadBe_storeBe,
    Nat.mod_eq_of_lt hlength, Nat.mod_eq_of_lt hid, Nat.mod_eq_of_lt hcode]
  exact ⟨rfl, rfl, hflags, rfl⟩

/-- Eleven bytes whose length is in range are the header of a packet, for any body of that length. -/
theorem header_of_load {hdr body : List UInt8} (hhdr : hdr.length = 11)
    (hbody : 11 + body.length = loadBe (hdr.take 4)) (hle : loadBe (hdr.take 4) ≤ kMaxMonoReply) :
    ∃ packet : Packet, packet.header = hdr ∧ packet.body = body := by
  have hbounded : 11 + body.length ≤ kMaxMonoReply := hbody ▸ hle
  match hdr, hhdr with
  | [l0, l1, l2, l3, i0, i1, i2, i3, flags, c0, c1], _ =>
    have hid : loadBe [i0, i1, i2, i3] < 2 ^ 32 :=
      (loadBe_lt [i0, i1, i2, i3]).trans_eq (by norm_num)
    have hcode : loadBe [c0, c1] < 2 ^ 16 := (loadBe_lt [c0, c1]).trans_eq (by norm_num)
    refine ⟨⟨UInt32.ofNat (loadBe [i0, i1, i2, i3]), flags, UInt16.ofNat (loadBe [c0, c1]), body,
      hbounded⟩, ?_, rfl⟩
    have hlength : storeBe 4 (11 + body.length) = [l0, l1, l2, l3] := by
      rw [hbody]
      exact storeBe_loadBe [l0, l1, l2, l3]
    have hids : storeBe 4 (UInt32.ofNat (loadBe [i0, i1, i2, i3])).toNat = [i0, i1, i2, i3] := by
      rw [UInt32.toNat_ofNat', Nat.mod_eq_of_lt hid]
      exact storeBe_loadBe [i0, i1, i2, i3]
    have hcodes : storeBe 2 (UInt16.ofNat (loadBe [c0, c1])).toNat = [c0, c1] := by
      rw [UInt16.toNat_ofNat', Nat.mod_eq_of_lt hcode]
      exact storeBe_loadBe [c0, c1]
    rw [Packet.header]
    dsimp only
    rw [hlength, hids, hcodes]
    rfl

/-! ### Reading packets -/

variable {socket : Socket} {id : UInt32}

theorem carries_append {position : ℕ} {first second : List UInt8} :
    socket.Carries position (first ++ second) ↔
      socket.Carries position first ∧ socket.Carries (position + first.length) second := by
  induction first generalizing position with
  | nil => simp [Socket.carries_nil]
  | cons byte first ih =>
    rw [List.cons_append, Socket.carries_cons, ih, Socket.carries_cons, and_assoc, List.length_cons,
      Nat.add_assoc, Nat.add_comm 1]

theorem recvAll_of_carries {position : ℕ} {bytes : List UInt8} (h : socket.Carries position bytes) :
    recvAll socket position bytes.length = (.ok bytes, position + bytes.length) := by
  induction bytes generalizing position with
  | nil => rfl
  | cons byte bytes ih =>
    obtain ⟨hfirst, hbytes⟩ := Socket.carries_cons.mp h
    rw [List.length_cons, recvAll, hfirst]
    dsimp only
    rw [ih hbytes, Nat.add_assoc, Nat.add_comm 1]

/-- The bytes asked for, or the first position that brings none. -/
theorem recvAll_cases (socket : Socket) (position n : ℕ) :
    (∃ bytes, bytes.length = n ∧ socket.Carries position bytes ∧
        recvAll socket position n = (.ok bytes, position + n)) ∨
      ∃ stopped, position ≤ stopped ∧ stopped < position + n ∧ socket.recv stopped = none ∧
        recvAll socket position n = (.error ("recv: " ++ socket.strerror), stopped) := by
  induction n generalizing position with
  | zero => exact .inl ⟨[], rfl, socket.carries_nil position, rfl⟩
  | succ n ih =>
    rw [recvAll]
    cases hfirst : socket.recv position with
    | none => exact .inr ⟨position, le_rfl, by omega, hfirst, rfl⟩
    | some byte =>
      dsimp only
      rcases ih (position + 1) with ⟨bytes, hlength, hcarries, hread⟩ |
        ⟨stopped, hlow, hhigh, hnone, hread⟩
      · left
        refine ⟨byte :: bytes, by rw [List.length_cons, hlength],
          Socket.carries_cons.mpr ⟨hfirst, hcarries⟩, ?_⟩
        rw [hread, Nat.add_assoc, Nat.add_comm 1]
      · right
        refine ⟨stopped, by omega, by omega, hnone, ?_⟩
        rw [hread]

/-- The next packet: the answer is taken, any other is passed over. -/
theorem readReply_packet {guard position : ℕ} {packet : Packet}
    (h : socket.Carries position packet.bytes) :
    readReply socket id (guard + 1) position =
      if packet.Answers id then (packet.answer, position + packet.bytes.length)
      else readReply socket id guard (position + packet.bytes.length) := by
  obtain ⟨hheader, hbody⟩ := carries_append.mp h
  obtain ⟨hlen, hid, hflags, hcode⟩ := packet.load_header
  have hread := recvAll_of_carries hheader
  have hreadBody := recvAll_of_carries hbody
  rw [packet.length_header] at hread hreadBody
  have hrange : ¬(11 + packet.body.length < 11 ∨ kMaxMonoReply < 11 + packet.body.length) := by
    have hle := packet.length_le
    omega
  have hbehind : position + packet.bytes.length = position + 11 + packet.body.length := by
    rw [Packet.bytes, List.length_append, packet.length_header, Nat.add_assoc]
  rw [readReply, hread]
  dsimp only
  rw [hlen, if_neg hrange, Nat.add_sub_cancel_left, hreadBody, hid, hflags, hcode, hbehind]
  dsimp only
  by_cases hanswers : packet.Answers id
  · have hours : ¬(packet.flags &&& 0x80 = 0 ∨ packet.id.toNat ≠ id.toNat) := by
      rintro (hevent | hother)
      · exact hanswers.1 hevent
      · exact hother (congrArg UInt32.toNat hanswers.2)
    rw [if_neg hours, if_pos hanswers, Packet.answer]
    by_cases hcode : packet.code = 0
    · simp [hcode]
    · have hne : packet.code.toNat ≠ 0 := by
        intro hzero
        exact hcode (UInt16.toNat_inj.mp hzero)
      rw [if_pos hne, if_pos hcode]
  · have hforeign : packet.flags &&& 0x80 = 0 ∨ packet.id.toNat ≠ id.toNat := by
      by_contra h
      obtain ⟨hreply, hown⟩ := not_or.mp h
      exact hanswers ⟨hreply, UInt32.toNat_inj.mp (not_not.mp hown)⟩
    rw [if_pos hforeign, if_neg hanswers]

/-- Packets that are not the answer are passed over, whole. -/
theorem readReply_others {others : List Packet} (hothers : ∀ packet ∈ others, ¬packet.Answers id)
    {position : ℕ} (h : socket.Carries position (others.flatMap Packet.bytes)) (guard : ℕ) :
    readReply socket id (others.length + guard) position =
      readReply socket id guard (position + (others.flatMap Packet.bytes).length) := by
  induction others generalizing position with
  | nil => simp
  | cons packet others ih =>
    rw [List.flatMap_cons] at h ⊢
    obtain ⟨hfirst, hrest⟩ := carries_append.mp h
    rw [List.length_cons, Nat.add_right_comm, readReply_packet hfirst,
      if_neg (hothers packet List.mem_cons_self),
      ih (fun other hother ↦ hothers other (List.mem_cons_of_mem _ hother)) hrest,
      List.length_append, Nat.add_assoc]

/-- Packets that are none of the answer, fewer than the bound, and then the answer. -/
theorem readReply_exchange {others : List Packet} {reply : Packet} {guard position : ℕ}
    (hbound : others.length < guard) (hothers : ∀ packet ∈ others, ¬packet.Answers id)
    (hreply : reply.Answers id)
    (h : socket.Carries position (others.flatMap Packet.bytes ++ reply.bytes)) :
    readReply socket id guard position =
      (reply.answer, position + (others.flatMap Packet.bytes ++ reply.bytes).length) := by
  obtain ⟨hfirst, hlast⟩ := carries_append.mp h
  obtain ⟨left, hleft⟩ : ∃ left, guard = others.length + (left + 1) :=
    ⟨guard - others.length - 1, by omega⟩
  rw [hleft, readReply_others hothers hfirst, readReply_packet hlast, if_pos hreply,
    List.length_append, Nat.add_assoc]

/-- A stop at a packet: the stream brings no more bytes, or its length is out of range. -/
inductive Unreadable (socket : Socket) (position : ℕ) : String → Prop
  | header {stopped : ℕ} (hlow : position ≤ stopped) (hhigh : stopped < position + 11)
      (hnone : socket.recv stopped = none) :
      Unreadable socket position ("recv hdr: " ++ ("recv: " ++ socket.strerror))
  | length {hdr : List UInt8} (hhdr : hdr.length = 11) (hcarries : socket.Carries position hdr)
      (hrange : loadBe (hdr.take 4) < 11 ∨ kMaxMonoReply < loadBe (hdr.take 4)) :
      Unreadable socket position "reply length out of range"
  | body {hdr : List UInt8} {stopped : ℕ} (hhdr : hdr.length = 11)
      (hcarries : socket.Carries position hdr) (hlow : position + 11 ≤ stopped)
      (hhigh : stopped < position + loadBe (hdr.take 4)) (hnone : socket.recv stopped = none) :
      Unreadable socket position ("recv body: " ++ ("recv: " ++ socket.strerror))

/-- The stream goes on with a packet, or it cannot be read. -/
theorem packet_or_unreadable (socket : Socket) (id : UInt32) (guard position : ℕ) :
    (∃ packet : Packet, socket.Carries position packet.bytes) ∨
      ∃ message, Unreadable socket position message ∧
        (readReply socket id (guard + 1) position).1 = .error message := by
  rw [readReply]
  rcases recvAll_cases socket position 11 with
    ⟨hdr, hhdr, hcarries, hread⟩ | ⟨stopped, hlow, hhigh, hnone, hread⟩
  · rw [hread]
    dsimp only
    by_cases hrange : loadBe (hdr.take 4) < 11 ∨ kMaxMonoReply < loadBe (hdr.take 4)
    · right
      rw [if_pos hrange]
      exact ⟨_, .length hhdr hcarries hrange, rfl⟩
    · rw [if_neg hrange]
      obtain ⟨hlow, hhigh⟩ := not_or.mp hrange
      rcases recvAll_cases socket (position + 11) (loadBe (hdr.take 4) - 11) with
        ⟨body, hbody, hcarriesBody, -⟩ | ⟨stopped, hfrom, hto, hnone, hreadBody⟩
      · left
        obtain ⟨packet, hheader, hpacketBody⟩ :=
          @header_of_load hdr body hhdr (by omega) (not_lt.mp hhigh)
        refine ⟨packet, ?_⟩
        rw [Packet.bytes, hheader, hpacketBody, carries_append, hhdr]
        exact ⟨hcarries, hcarriesBody⟩
      · right
        rw [hreadBody]
        exact ⟨_, .body hhdr hcarries hfrom (by omega) hnone, rfl⟩
  · right
    rw [hread]
    exact ⟨_, .header hlow hhigh hnone, rfl⟩

/-- How a read ends, with the packets that were passed over. -/
inductive Ending (socket : Socket) (id : UInt32) (guard position : ℕ) :
    Except String (List UInt8) → Prop
  | answer {others : List Packet} {reply : Packet} (hbound : others.length < guard)
      (hothers : ∀ packet ∈ others, ¬packet.Answers id) (hreply : reply.Answers id)
      (hcarries : socket.Carries position (others.flatMap Packet.bytes ++ reply.bytes)) :
      Ending socket id guard position reply.answer
  | exhausted {others : List Packet} (hbound : others.length = guard)
      (hothers : ∀ packet ∈ others, ¬packet.Answers id)
      (hcarries : socket.Carries position (others.flatMap Packet.bytes)) :
      Ending socket id guard position (.error "no matching reply after draining agent events")
  | unreadable {others : List Packet} {message : String} (hbound : others.length < guard)
      (hothers : ∀ packet ∈ others, ¬packet.Answers id)
      (hcarries : socket.Carries position (others.flatMap Packet.bytes))
      (hstop : Unreadable socket (position + (others.flatMap Packet.bytes).length) message) :
      Ending socket id guard position (.error message)

/-- Behind one more packet that is passed over. -/
theorem Ending.behind {guard position : ℕ} {packet : Packet} {result : Except String (List UInt8)}
    (hforeign : ¬packet.Answers id) (hpacket : socket.Carries position packet.bytes)
    (h : Ending socket id guard (position + packet.bytes.length) result) :
    Ending socket id (guard + 1) position result := by
  have hcons : ∀ {others : List Packet}, (∀ other ∈ others, ¬other.Answers id) →
      ∀ other ∈ packet :: others, ¬other.Answers id := by
    intro others hothers other hother
    rcases List.mem_cons.mp hother with rfl | hother
    · exact hforeign
    · exact hothers other hother
  cases h with
  | @answer others reply hbound hothers hreply hcarries =>
    refine @Ending.answer _ _ _ _ (packet :: others) reply (Nat.succ_lt_succ hbound)
      (hcons hothers) hreply ?_
    rw [List.flatMap_cons, List.append_assoc, carries_append]
    exact ⟨hpacket, hcarries⟩
  | @exhausted others hbound hothers hcarries =>
    refine @Ending.exhausted _ _ _ _ (packet :: others) (congrArg _ hbound) (hcons hothers) ?_
    rw [List.flatMap_cons, carries_append]
    exact ⟨hpacket, hcarries⟩
  | @unreadable others message hbound hothers hcarries hstop =>
    refine @Ending.unreadable _ _ _ _ (packet :: others) _ (Nat.succ_lt_succ hbound)
      (hcons hothers) ?_ ?_
    · rw [List.flatMap_cons, carries_append]
      exact ⟨hpacket, hcarries⟩
    · rw [List.flatMap_cons, List.length_append, ← Nat.add_assoc]
      exact hstop

theorem readReply_ending (socket : Socket) (id : UInt32) (guard position : ℕ) :
    Ending socket id guard position (readReply socket id guard position).1 := by
  induction guard generalizing position with
  | zero => exact .exhausted rfl (fun _ h ↦ absurd h List.not_mem_nil) (socket.carries_nil position)
  | succ guard ih =>
    rcases packet_or_unreadable socket id guard position with ⟨packet, hpacket⟩ |
      ⟨message, hstop, hresult⟩
    · rw [readReply_packet hpacket]
      split
      · next hanswers =>
        exact @Ending.answer _ _ _ _ [] packet (Nat.succ_pos _) (fun _ h ↦ absurd h List.not_mem_nil)
          hanswers hpacket
      · next hforeign => exact (ih _).behind hforeign hpacket
    · rw [hresult]
      exact @Ending.unreadable _ _ _ _ [] message (Nat.succ_pos _)
        (fun _ h ↦ absurd h List.not_mem_nil) (socket.carries_nil position) hstop

/-! ### Commands -/

/-- Why a command has the result it has. -/
inductive Explained (socket : Socket) (client : Client) : Except String (List UInt8) → Prop
  | disconnected (h : client.connected = false) : Explained socket client (.error "not connected")
  | unsent (h : socket.sends = false) :
      Explained socket client (.error ("send: send: " ++ socket.strerror))
  | read {result : Except String (List UInt8)}
      (h : Ending socket client.nextPacketId 4096 client.position result) :
      Explained socket client result

/-- The client behind a command that was answered. -/
def Client.after (client : Client) (exchange : Exchange) : Client :=
  { client with
    nextPacketId := client.nextPacketId + 1
    position := client.position + exchange.bytes.length
    sent := client.sent ++ [commandPacket client.nextPacketId exchange.command] }

theorem sendCommand_exchange {client : Client} {exchange : Exchange}
    (hconnected : client.connected = true) (hsends : socket.sends = true)
    (hbound : exchange.others.length < 4096)
    (hothers : ∀ packet ∈ exchange.others, ¬packet.Answers client.nextPacketId)
    (hreply : exchange.reply.Answers client.nextPacketId)
    (hcarries : socket.Carries client.position exchange.bytes) :
    client.sendCommand socket exchange.command = (exchange.reply.answer, client.after exchange) := by
  have hread := readReply_exchange hbound hothers hreply hcarries
  have hup : ¬(!client.connected) = true := by simp [hconnected]
  have hsent : ¬(!socket.sends) = true := by simp [hsends]
  rw [Client.sendCommand, if_neg hup]
  dsimp only
  rw [if_neg hsent, hread]
  rfl

theorem sendCommands_exchanges {client : Client} {exchanges : List Exchange}
    (hconnected : client.connected = true) (hsends : socket.sends = true)
    (hanswered : Answered client.nextPacketId exchanges)
    (hcarries : socket.Carries client.position (exchanges.flatMap Exchange.bytes)) :
    client.sendCommands socket (exchanges.map Exchange.command) =
      (exchanges.map fun exchange ↦ exchange.reply.answer, exchanges.foldl Client.after client) := by
  induction exchanges generalizing client with
  | nil => rfl
  | cons exchange rest ih =>
    obtain ⟨hbound, hothers, hreply, hrest⟩ := hanswered
    rw [List.flatMap_cons] at hcarries
    obtain ⟨hfirst, hlater⟩ := carries_append.mp hcarries
    rw [List.map_cons, Client.sendCommands,
      sendCommand_exchange hconnected hsends hbound hothers hreply hfirst]
    dsimp only
    rw [@ih (client.after exchange) hconnected hrest hlater]
    rfl

theorem sendCommand_explained (socket : Socket) (client : Client) (command : Command) :
    Explained socket client (client.sendCommand socket command).1 := by
  rw [Client.sendCommand]
  cases hconnected : client.connected with
  | false => exact .disconnected hconnected
  | true =>
    cases hsends : socket.sends with
    | false => exact .unsent hsends
    | true => exact .read (readReply_ending socket client.nextPacketId 4096 client.position)

/-- Commands that are answered within the bound get what their own replies say, whatever events and
other replies stand in between; and a command has no other result than the answer of its own reply,
or an error of the connection, of a length, or of the bound. -/
theorem sendCommand_matched (socket : Socket) :
    (∀ (client : Client) (exchanges : List Exchange), client.connected = true →
      socket.sends = true → Answered client.nextPacketId exchanges →
      socket.Carries client.position (exchanges.flatMap Exchange.bytes) →
      client.sendCommands socket (exchanges.map Exchange.command) =
        (exchanges.map fun exchange ↦ exchange.reply.answer, exchanges.foldl Client.after client)) ∧
    ∀ (client : Client) (command : Command),
      Explained socket client (client.sendCommand socket command).1 :=
  ⟨fun _ _ ↦ sendCommands_exchanges, fun client command ↦
    sendCommand_explained socket client command⟩

end MonoDebugger

end Cecore.Platform
