import DistributedDb.Node.TcpServer

/-
The two ways a node sends a message.

A `send()` may take fewer bytes than it is offered.  `send_message` offers the
rest again until the whole line is gone; `send_and_forget` calls `send()` once
and closes the connection, so what the socket did not take at once is lost.
-/

namespace DistributedDb
namespace TcpClient

open Codec

variable {φ : Type}

/-- `static_cast<int>` of a size. -/
def intOfSize (n : Nat) : Int := ((n : Int) + 2 ^ 31) % 2 ^ 32 - 2 ^ 31

theorem intOfSize_of_lt {n : Nat} (h : n < 2 ^ 31) : intOfSize n = n := by
  unfold intOfSize
  omega

theorem intOfSize_le (n : Nat) : intOfSize n ≤ n := by
  unfold intOfSize
  omega

theorem lt_of_intOfSize_eq {n : Nat} (h : intOfSize n = n) : n < 2 ^ 31 := by
  unfold intOfSize at h
  omega

/-- What the `i`-th `send()` on a connection returns, by the number of bytes it
is offered. -/
abbrev Socket := Nat → Int → Int

/-- Each `send()` takes at least one byte of those it is offered, and no more
than those. -/
def Socket.Accepting (s : Socket) : Prop :=
  ∀ i n, (1 ≤ n → 1 ≤ s i n) ∧ s i n ≤ max n 0

/-- The `while` loop of `send_message` from its `i`-th call on, over the bytes
that are left: the bytes it puts on the wire, and whether it got to the end. -/
def sendAll (s : Socket) (i : Nat) (data : Bytes) : Bytes × Bool :=
  if data = [] then ([], true)
  else
    let sent := s i (intOfSize data.length)
    if sent ≤ 0 then ([], false)
    else
      let p := sendAll s (i + 1) (data.drop sent.toNat)
      (data.take sent.toNat ++ p.1, p.2)
termination_by data.length
decreasing_by
  rename_i hend hfail
  have hlen := List.length_pos_iff.mpr hend
  rw [List.length_drop]
  omega

/-- The bytes `send_message` puts on the wire before it reads the reply. -/
def sendMessage (x : Externals φ) (s : Socket) (msg : Message) : Option (Bytes × Bool) :=
  (serializeMessage x msg).map (sendAll s 0)

/-- The bytes `send_and_forget` puts on the wire.  The result of its one
`send()` is not looked at. -/
def sendAndForget (x : Externals φ) (s : Socket) (msg : Message) : Option Bytes :=
  (serializeMessage x msg).map fun data => data.take (s 0 (intOfSize data.length)).toNat

/-- One turn of the loop puts the first bytes on the wire and leaves the rest to
the turns after it. -/
theorem sendAll_of_ne_nil {s : Socket} {i : Nat} {data : Bytes} (hend : data ≠ [])
    (hsent : 1 ≤ s i (intOfSize data.length)) :
    sendAll s i data =
      (data.take (s i (intOfSize data.length)).toNat ++
        (sendAll s (i + 1) (data.drop (s i (intOfSize data.length)).toNat)).1,
      (sendAll s (i + 1) (data.drop (s i (intOfSize data.length)).toNat)).2) := by
  rw [sendAll, if_neg hend]
  exact if_neg (by omega)

/-- However the socket splits it, the loop sends a line that an `int` can
measure whole. -/
theorem sendAll_eq {s : Socket} (hs : s.Accepting) (i : Nat) {data : Bytes}
    (hsize : data.length < 2 ^ 31) : sendAll s i data = (data, true) := by
  -- By induction on the length: every turn takes at least one byte.
  generalize hn : data.length = n
  induction n using Nat.strongRecOn generalizing i data with
  | ind n ih =>
    by_cases hend : data = []
    · rw [sendAll, if_pos hend, hend]
    · have hpos := List.length_pos_iff.mpr hend
      have hcast := intOfSize_of_lt hsize
      have hsent : 1 ≤ s i (intOfSize data.length) := (hs i _).1 (by omega)
      have hrest : (data.drop (s i (intOfSize data.length)).toNat).length < n := by
        rw [List.length_drop]
        omega
      rw [sendAll_of_ne_nil hend hsent, ih _ hrest (i + 1) (by omega) rfl,
        List.take_append_drop]

theorem serializeMessage_ne_nil {x : Externals φ} {msg : Message} {data : Bytes}
    (h : serializeMessage x msg = some data) : data ≠ [] := by
  obtain ⟨json, -, rfl⟩ := TcpServer.serializeMessage_eq_some h
  simp

/-- What `send_and_forget` puts on the wire is the whole line, and the same as
`send_message` puts there on a connection of its own, exactly when the first
`send()` takes all of it. -/
theorem sendAndForget_whole_iff (x : Externals φ) {msg : Message} {data : Bytes}
    (hdata : serializeMessage x msg = some data) {s t : Socket} (hs : s.Accepting)
    (ht : t.Accepting) :
    (sendAndForget x s msg = some data ∧
      sendAndForget x s msg = (sendMessage x t msg).map Prod.fst) ↔
    s 0 (intOfSize data.length) = data.length := by
  have hforget : sendAndForget x s msg =
      some (data.take (s 0 (intOfSize data.length)).toNat) := by
    rw [sendAndForget, hdata, Option.map_some]
  have hpos := List.length_pos_iff.mpr (serializeMessage_ne_nil hdata)
  have hmost := (hs 0 (intOfSize data.length)).2
  have hcast := intOfSize_le data.length
  constructor
  · rintro ⟨hwhole, -⟩
    rw [hforget, Option.some.injEq, List.take_eq_self_iff] at hwhole
    omega
  · intro hall
    have hwhole : sendAndForget x s msg = some data := by
      rw [hforget, hall, Int.toNat_natCast, List.take_length]
    have hsize : data.length < 2 ^ 31 := lt_of_intOfSize_eq (by omega)
    refine ⟨hwhole, ?_⟩
    rw [hwhole, sendMessage, hdata, Option.map_some, Option.map_some, sendAll_eq ht 0 hsize]

/-- The update of a replica that the owner of a key sends. -/
def replicaUpdate : Message :=
  { type := .replicate, key := ascii "k", value := ascii "v", nodeId := 1, error := ascii "PUT" }

def replicaUpdateLine : Bytes :=
  ascii "\x7b\"error\":\"PUT\",\"key\":\"k\",\"node_id\":1,\"success\":false," ++
    ascii "\"term\":0,\"timestamp\":0,\"type\":\"REPLICATE\",\"value\":\"v\"\x7d\n"

theorem serializeMessage_replicaUpdate :
    serializeMessage TcpServer.integersOnly replicaUpdate = some replicaUpdateLine := by
  decide +kernel

/-- A socket with room for `room` bytes at a time. -/
def withRoom (room : Int) : Socket := fun _ n => min n room

theorem accepting_withRoom {room : Int} (h : 1 ≤ room) : (withRoom room).Accepting := by
  intro i n
  unfold withRoom
  omega

/-- The line fits into the room of the socket. -/
theorem sendAndForget_whole_update :
    sendAndForget TcpServer.integersOnly (withRoom 4096) replicaUpdate = some replicaUpdateLine :=
  ((sendAndForget_whole_iff TcpServer.integersOnly serializeMessage_replicaUpdate
    (accepting_withRoom (show (1 : Int) ≤ 4096 by decide))
    (accepting_withRoom (show (1 : Int) ≤ 64 by decide))).mpr (by decide +kernel)).1

/-- A socket that takes 64 bytes at a time: the replica gets a part of the line,
where `send_message` would have sent all of it. -/
theorem sendAndForget_sends_part :
    (withRoom 64).Accepting ∧
    serializeMessage TcpServer.integersOnly replicaUpdate = some replicaUpdateLine ∧
    sendAndForget TcpServer.integersOnly (withRoom 64) replicaUpdate ≠ some replicaUpdateLine ∧
    (sendMessage TcpServer.integersOnly (withRoom 64) replicaUpdate).map Prod.fst =
      some replicaUpdateLine := by
  have hroom := accepting_withRoom (show (1 : Int) ≤ 64 by decide)
  refine ⟨hroom, serializeMessage_replicaUpdate, ?_, ?_⟩
  · rw [sendAndForget, serializeMessage_replicaUpdate, Option.map_some]
    decide +kernel
  · rw [sendMessage, serializeMessage_replicaUpdate, Option.map_some, Option.map_some,
      sendAll_eq hroom 0 (by decide)]

end TcpClient
end DistributedDb
