import DistributedDb.Cluster.SharedRing

/-
Reads while failures are being detected.

The first live owner of a key answers a read from its own store, whether it
sees itself as the primary or falls back to itself after a crashed one.  Every
other live node either sees it as the primary or finds it in the replica loop
after the crashed owners it has not detected yet.
-/

namespace DistributedDb
namespace Cluster

open Coordinator

variable (callee : Cluster → Int → Message → Option (Cluster × Message)) {c : Cluster} {me : Int}
  {msg : Message}

/-- The replica loop passes over the target and over replicas that do not
answer. -/
theorem tryReplicas_skip {target : Int} {skipped : List NodeInfo} (rest : List NodeInfo)
    (h : ∀ r ∈ skipped, r.id = target ∨ (r.id ≠ me ∧ c.listener r.host r.port = none)) :
    runWith callee me (tryReplicas me target msg (skipped ++ rest)) c =
      runWith callee me (tryReplicas me target msg rest) c := by
  induction skipped with
  | nil => rfl
  | cons r skipped ih =>
    have ih := ih fun r' hr' => h r' (List.mem_cons_of_mem r hr')
    rw [List.cons_append, tryReplicas]
    by_cases ht : r.id = target
    · rw [if_pos ht, ih]
    · obtain ⟨hme, hdown⟩ := (h r List.mem_cons_self).resolve_left ht
      rw [if_neg ht, if_neg hme, runWith, hdown]
      exact ih

theorem tryReplicas_self {target : Int} {r : NodeInfo} {v : Bytes} (rest : List NodeInfo)
    (ht : r.id ≠ target) (hme : r.id = me) (hget : msg.type = .get)
    (hv : (c.node me).storage.get msg.key = some v) :
    runWith callee me (tryReplicas me target msg (r :: rest)) c = some (c, makeAck me true v) := by
  rw [tryReplicas, if_neg ht, if_pos hme, if_pos hget, runWith, hv]
  rfl

theorem tryReplicas_up {target j : Int} {r : NodeInfo} {d : Cluster} {reply : Message}
    (rest : List NodeInfo) (ht : r.id ≠ target) (hme : r.id ≠ me)
    (hup : c.listener r.host r.port = some j) (hcall : callee c j msg = some (d, reply))
    (hok : reply.success = true) :
    runWith callee me (tryReplicas me target msg (r :: rest)) c = some (d, reply) := by
  rw [tryReplicas, if_neg ht, if_neg hme, runWith]
  simp only [hup, hcall, hok, if_true]
  rfl

/-- The first element of a list with a property. -/
theorem exists_first {α : Type} {P : α → Prop} {l : List α} (h : ∃ a ∈ l, P a) :
    ∃ before a after, l = before ++ a :: after ∧ P a ∧ ∀ b ∈ before, ¬ P b := by
  classical
  obtain ⟨a, ha, hP⟩ := h
  have hfind : (l.find? fun a => decide (P a)).isSome = true :=
    List.find?_isSome.mpr ⟨a, ha, decide_eq_true hP⟩
  obtain ⟨b, hb⟩ := Option.isSome_iff_exists.mp hfind
  obtain ⟨hPb, before, after, hl, hbefore⟩ := List.find?_eq_some_iff_append.mp hb
  exact ⟨before, b, after, hl, of_decide_eq_true hPb, fun x hx => by simpa using hbefore x hx⟩

namespace SharedRing

variable {base : HashRing} {view : Int → Int → Bool} {live : Int → Prop}

/-- What a live node sees of the owners when `n` is the first live one: some of
the crashed owners before `n`, then `n`. -/
theorem filter_owners (view : Int → Int → Bool) {key : Bytes} {i : Int}
    {before after : List NodeInfo} {n : NodeInfo}
    (howners : base.owners key = before ++ n :: after) (hn : view i n.id = true) :
    ((base.owners key).filter fun m => view i m.id) =
      (before.filter fun m => view i m.id) ++ n :: after.filter fun m => view i m.id := by
  rw [howners, List.filter_append,
    List.filter_cons_of_pos (p := fun m : NodeInfo => view i m.id) hn]

/-- One node of the read: either it answers itself, or what it returns is the
answer of the first live owner. -/
theorem read_step (h : SharedRing c base view live) {i : Int} (hi : live i)
    {before after : List NodeInfo} {n : NodeInfo} {v : Bytes} {reply : Message}
    (howners : base.owners msg.key = before ++ n :: after) (hshort : before.length ≤ 2)
    (hbefore : ∀ m ∈ before, ¬ live m.id) (hn : live n.id) (hview : view i n.id = true)
    (hget : msg.type = .get) (hv : (c.node n.id).storage.get msg.key = some v)
    (hcall : n.id ≠ i → callee c n.id msg = some (c, reply)) (hok : reply.success = true)
    (hself : n.id = i → reply = makeAck n.id true v) :
    runWith callee i (handle i msg) c = some (c, reply) := by
  have hmem : ∀ m ∈ before ++ n :: after, m ∈ base.owners msg.key := fun m hm => howners ▸ hm
  have hup : c.listener n.host n.port = some n.id :=
    (h.listener_iff (hmem n (by simp)) n.id).mpr ⟨rfl, hn⟩
  have hdown : ∀ m ∈ before, c.listener m.host m.port = none := fun m hm =>
    (h.listener_eq_none_iff (hmem m (List.mem_append_left _ hm))).mpr (hbefore m hm)
  have hseen := filter_owners view howners hview
  have hprim := h.getPrimary hi msg.key
  have hrep := h.getReplicas hi msg.key
  rw [hseen] at hprim hrep
  rw [handle_of_isRequest (Or.inr (Or.inl hget))]
  have hsome : ∀ m ∈ before.filter fun m => view i m.id, m ∈ before :=
    fun m hm => (List.mem_filter.mp hm).1
  have hlen : (before.filter fun m => view i m.id).length ≤ 2 :=
    le_trans (List.length_filter_le ..) hshort
  generalize (before.filter fun m => view i m.id) = undetected at hprim hrep hsome hlen
  cases undetected with
  | nil =>
    -- Every crashed owner before `n` has been detected.
    have hprim : (c.node i).ring.getPrimary msg.key = some (HashRing.flagged (view i) n) := hprim
    by_cases hni : n.id = i
    · rw [runWith_route_of_self _ i c _ hprim hni, execute, hget]
      subst hni
      rw [hself rfl]
      simp only [runWith_executeGet, hv]
    · rw [runWith_route_of_up _ i c _ hprim hni hup]
      exact hcall hni
  | cons p rest =>
    have hprim : (c.node i).ring.getPrimary msg.key = some (HashRing.flagged (view i) p) := hprim
    have hpb := hsome p List.mem_cons_self
    have hpi : p.id ≠ i := fun hpi => hbefore p hpb (hpi ▸ hi)
    have hnp : n.id ≠ p.id := fun hnp => hbefore p hpb (hnp ▸ hn)
    rw [runWith_route_of_down _ i c _ hprim hpi (hdown p hpb), hrep, List.take_append,
      List.take_of_length_le (by omega), List.map_append, tryReplicas_skip]
    · obtain ⟨k, hk⟩ : ∃ k, 3 - (p :: rest).length = k + 1 := by
        refine ⟨2 - (p :: rest).length, ?_⟩
        omega
      rw [hk, List.take_succ_cons, List.map_cons]
      by_cases hni : n.id = i
      · subst hni
        rw [hself rfl]
        exact tryReplicas_self callee _ hnp rfl hget hv
      · exact tryReplicas_up callee _ hnp hni hup (hcall hni) hok
    · intro r hr
      obtain ⟨m, hm, rfl⟩ := List.mem_map.mp hr
      have hmb := hsome m hm
      exact Or.inr ⟨fun hmi => hbefore m hmb (hmi ▸ hi), hdown m hmb⟩

/-- Reads survive failures at every stage of their detection: when the replicas
of a key store `v`, one of them is live and no live node is marked dead, a `GET`
at any live node ends with success and the value `v`. -/
theorem reads_survive (h : SharedRing c base view live)
    (halive : ∀ e ∈ base.ring.entries, e.2.alive = true)
    (hdetect : ∀ i j, live i → live j → view i j = true) {v : Bytes}
    (hstored : ∀ n ∈ base.getReplicas msg.key replicationFactor,
      (c.node n.id).storage.get msg.key = some v)
    (hleft : ∃ n ∈ base.getReplicas msg.key replicationFactor, live n.id)
    {i : Int} (hi : live i) (hget : msg.type = .get) :
    ∃ budget reply, serve budget c i msg = some (c, reply) ∧ reply.success = true ∧
      reply.value = v := by
  have hrep : base.getReplicas msg.key replicationFactor = (base.owners msg.key).take 3 :=
    HashRing.getReplicas_eq_take_owners halive msg.key 3 (by omega)
  obtain ⟨before, n, after, htake, hn, hbefore⟩ := exists_first hleft
  rw [hrep] at htake
  have howners : base.owners msg.key =
      before ++ n :: (after ++ (base.owners msg.key).drop 3) := by
    have hsplit := List.take_append_drop 3 (base.owners msg.key)
    rw [htake] at hsplit
    simpa using hsplit.symm
  have hshort : before.length ≤ 2 := by
    have hlen := congrArg List.length htake
    rw [List.length_append, List.length_cons] at hlen
    have := List.length_take_le 3 (base.owners msg.key)
    omega
  have hv : (c.node n.id).storage.get msg.key = some v := by
    refine hstored n ?_
    rw [hrep, htake]
    simp
  -- The first live owner answers without asking anyone, and the others ask it.
  have hfirst : serve 1 c n.id msg = some (c, makeAck n.id true v) :=
    h.read_step (serve 0) hn howners hshort hbefore hn (hdetect _ _ hn hn) hget hv
      (fun hne => absurd rfl hne) rfl fun _ => rfl
  refine ⟨2, makeAck n.id true v, ?_, rfl, rfl⟩
  exact h.read_step (serve 1) hi howners hshort hbefore hn (hdetect _ _ hi hn) hget hv
    (fun _ => hfirst) rfl fun _ => rfl

/-- Nodes 1 and 2 have crashed and nobody has noticed; node 3 reads. -/
theorem reads_survive_two_crashes :
    ∃ budget reply,
      serve budget ((launchCluster [1, 2] fun _ => []).withStorage fun _ =>
          (StorageEngine.start [] true).put (ascii "user1") (ascii "alice") 0) 3
          getMsg =
        some ((launchCluster [1, 2] fun _ => []).withStorage fun _ =>
          (StorageEngine.start [] true).put (ascii "user1") (ascii "alice") 0, reply) ∧
      reply.success = true ∧ reply.value = ascii "alice" := by
  have h := (sharedRing_launchCluster [1, 2] (fun _ => []) (by simp)).sameRouting
    (sameRouting_withStorage _ fun _ =>
      (StorageEngine.start [] true).put (ascii "user1") (ascii "alice") 0)
  refine reads_survive h HashRing.alive_launchRing (by simp) (fun n _ => ?_)
    ⟨launchNode 3, ?_, by decide⟩ (by decide) rfl
  · exact (StorageEngine.get_put _ _ _ _ _).trans (if_pos rfl)
  · show launchNode 3 ∈ HashRing.launchRing.getReplicas (ascii "user1") 3
    rw [HashRing.getReplicas_launchRing]
    simp

end SharedRing
end Cluster
end DistributedDb
