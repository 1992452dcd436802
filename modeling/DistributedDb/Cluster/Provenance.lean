import DistributedDb.Cluster.Contract
import DistributedDb.Cluster.Healthy
import DistributedDb.Storage.Wal

/-
Nothing is stored or read that no client wrote.

The contract of this file admits the pairs that a client has put.  Copies,
forwarded requests, the answers of replicas, whole transfers and what a restart
recovers stay inside it, so a successful read returns a value that some client
put under that key.  The keys and values are free of the separators of the log:
with one of them a restart finds records that nobody wrote.
-/

namespace DistributedDb

open Getline

/-- A binding that `recover` leaves comes from a line of the file. -/
theorem Wal.exists_put_of_recover {file key value : Bytes}
    (h : (Wal.recover ∅ file).lookup key = some value) :
    ∃ text ∈ getlines Wal.newline file,
      Wal.parseLine text = some { op := .put, key := key, value := value } := by
  have hview : Store.view (Wal.recover ∅ file) key = some value := h
  rw [Wal.view_recover, Write.applyAll_eq_last] at hview
  cases hlast : Write.last key
      (((getlines Wal.newline file).filterMap Wal.parseLine).map WalRecord.write) with
  | none => simp [hlast] at hview
  | some v =>
    rw [hlast, Option.getD_some] at hview
    subst hview
    obtain ⟨w, hw, hvalue⟩ := Option.map_eq_some_iff.mp hlast
    obtain ⟨hmem, hkey⟩ := List.mem_filter.mp (List.mem_of_getLast? hw)
    obtain ⟨⟨op, k, v⟩, hr, rfl⟩ := List.mem_map.mp hmem
    obtain ⟨text, htext, hparse⟩ := List.mem_filterMap.mp hr
    rw [decide_eq_true_eq, WalRecord.write_key] at hkey
    cases op with
    | put =>
      obtain rfl : v = value := Option.some.inj hvalue
      obtain rfl : k = key := hkey
      exact ⟨text, htext, hparse⟩
    | del => exact absurd hvalue (by simp [WalRecord.write])

namespace Provenance

open Coordinator

/-- A client put the pair in the course of the actions. -/
def Written (actions : List Action) (key value : Bytes) : Prop :=
  ∃ i msg, .invoke i msg ∈ actions ∧ msg.type = .put ∧ msg.key = key ∧ msg.value = value

variable {actions : List Action}

/-- The contract of the pairs that were put. -/
def written (actions : List Action) : Contract where
  pair key value := Written actions key value ∧ Wal.Clean key ∧ Wal.Clean value
  log log := ∃ rs, log = Wal.formatAll rs ∧ ∀ p ∈ rs, p.1.Clean ∧
    (p.1.op = .put → Written actions p.1.key p.1.value)
  admits msg :=
    (msg.type = .put ∨ (msg.type = .replicate ∧ msg.error ≠ ascii "DEL") →
      Written actions msg.key msg.value ∧ Wal.Clean msg.key ∧ Wal.Clean msg.value) ∧
    (msg.type = .syncData → ∀ p ∈ msg.kvPairs,
      Written actions p.1 p.2 ∧ Wal.Clean p.1 ∧ Wal.Clean p.2)
  answers msg reply :=
    (msg.type = .get → reply.success = true → Written actions msg.key reply.value) ∧
    ∀ p ∈ reply.kvPairs, Written actions p.1 p.2 ∧ Wal.Clean p.1 ∧ Wal.Clean p.2

theorem terms_written : (written actions).Terms where
  put msg hmsg hput := hmsg.1 (Or.inl hput)
  replicate msg hmsg hrepl herror := hmsg.1 (Or.inr ⟨hrepl, herror⟩)
  syncData msg hmsg hsync := hmsg.2 hsync
  copyPut me msg now hmsg hput :=
    ⟨fun _ => hmsg.1 (Or.inl hput), by simp [Replication.replicateMsg]⟩
  copyDel me msg now _ _ := by
    refine ⟨fun h => ?_, by simp [Replication.replicateMsg]⟩
    rcases h with h | h
    · exact absurd h (by simp [Replication.replicateMsg])
    · exact absurd h.2 (by simp [Replication.replicateMsg])
  syncRequest me := ⟨by simp, by simp⟩
  found me msg value _ _ hpair := ⟨fun _ _ => hpair.1, by simp [makeAck]⟩
  done me msg _ hnot := ⟨fun hget => absurd (by simp [hget]) hnot, by simp [makeAck]⟩
  missing me msg _ _ := ⟨by simp [makeError], by simp [makeError]⟩
  unavailable me msg _ _ :=
    ⟨⟨by simp [makeError], by simp [makeError]⟩, ⟨by simp [makeError], by simp [makeError]⟩⟩
  unknown me msg _ _ := ⟨by simp [makeError], by simp [makeError]⟩
  synced me msg pairs hsync hpairs := ⟨by simp [hsync], hpairs⟩
  snapshot me reply hreply := hreply.2

theorem log_concat {log : Bytes} (hlog : (written actions).log log) {r : WalRecord} (now : Int)
    (hclean : r.Clean) (hr : r.op = .put → Written actions r.key r.value) :
    (written actions).log (log ++ Wal.format r now) := by
  obtain ⟨rs, rfl, hrs⟩ := hlog
  refine ⟨rs ++ [(r, now)], ?_, fun p hp => ?_⟩
  · rw [Wal.formatAll_append]
    simp [Wal.formatAll]
  · rcases List.mem_append.mp hp with hp | hp
    · exact hrs p hp
    · rw [List.mem_singleton.mp hp]
      exact ⟨hclean, hr⟩

theorem lawful_written : (written actions).Lawful := by
  refine terms_written.lawful (fun log key value now hlog hpair => ?_)
    (fun log key value now hlog hpair => ?_) (fun log key value hlog hvalue => ?_)
  · exact log_concat hlog now ⟨hpair.2.1, hpair.2.2⟩ fun _ => hpair.1
  · exact log_concat hlog now ⟨hpair.2.1, Wal.clean_nil⟩ (by simp)
  · obtain ⟨rs, rfl, hrs⟩ := hlog
    obtain ⟨text, htext, hparse⟩ := Wal.exists_put_of_recover hvalue
    have hmem := List.mem_filterMap.mpr ⟨text, htext, hparse⟩
    rw [Wal.records_formatAll fun p hp => (hrs p hp).1] at hmem
    obtain ⟨p, hp, hrecord⟩ := List.mem_map.mp hmem
    obtain ⟨hclean, hwritten⟩ := hrs p hp
    rw [hrecord] at hclean hwritten
    exact ⟨hwritten rfl, hclean.1, hclean.2⟩

/-- Clients send requests whose pairs the log can hold; the services of the nodes
send heartbeats and election messages. -/
def Allowed : Action → Prop
  | .invoke _ msg => msg.IsRequest ∧ (msg.type = .put → Wal.Clean msg.key ∧ Wal.Clean msg.value)
  | .send packet =>
    packet.msg.type = .heartbeat ∨ packet.msg.type = .election ∨ packet.msg.type = .leader
  | _ => True

theorem allowed_written {a : Action} (ha : a ∈ actions) (hallowed : Allowed a) :
    (written actions).Allowed a := by
  cases a with
  | invoke i msg =>
    obtain ⟨hreq, hclean⟩ := hallowed
    refine ⟨fun h => ?_, fun hsync => ?_⟩
    · rcases h with hput | ⟨hrepl, -⟩
      · obtain ⟨hkey, hvalue⟩ := hclean hput
        exact ⟨⟨i, msg, ha, hput, rfl, rfl⟩, hkey, hvalue⟩
      · rcases hreq with h | h | h <;> exact absurd (h.symm.trans hrepl) (by decide)
    · rcases hreq with h | h | h <;> exact absurd (h.symm.trans hsync) (by decide)
  | send packet =>
    have hnot : ∀ ty, ty = MsgType.put ∨ ty = .replicate ∨ ty = .syncData →
        packet.msg.type ≠ ty := by
      intro ty hty heq
      rcases hallowed with h | h | h <;> rw [← heq, h] at hty <;> simp at hty
    refine ⟨fun h => ?_, fun hsync => absurd hsync (hnot _ (by simp))⟩
    rcases h with hput | ⟨hrepl, -⟩
    · exact absurd hput (hnot _ (by simp))
    · exact absurd hrepl (hnot _ (by simp))
  | run t => trivial
  | deliver packet again => trivial
  | lose packet => trivial
  | tick i now => trivial
  | restart self peers => trivial
  | sync i peer => trivial

def putUser1 : Message := { type := .put, key := ascii "user1", value := ascii "v" }

/-- A write, up to the moment its primary has stored it. -/
def putUser1Actions : List Action := [.invoke 1 putUser1, .run 0, .run 0, .run 0]

end Provenance
end DistributedDb
