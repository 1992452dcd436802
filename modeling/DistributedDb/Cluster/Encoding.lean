import DistributedDb.Cluster.Contract
import DistributedDb.Cluster.Provenance
import DistributedDb.Json.TextEncoding
import DistributedDb.Node.Relay

/-
No reply is lost because it cannot be printed.

`serialize_message` throws on a string that is not UTF-8, and the connection is
then closed without a reply.  Every string that a node decodes is UTF-8, and so
is whatever the handlers make of it; the separators of the log are ASCII, so a
restart does not cut a character either.
-/

namespace DistributedDb

open Json Getline Coordinator

/-! ## Splitting at a byte of ASCII -/

namespace Utf8Split

theorem valid_nil : Utf8.Valid [] := rfl

theorem valid_of_low {s : Bytes} (h : ∀ c ∈ s, c < 0x80) : Utf8.Valid s := by
  induction s with
  | nil => rfl
  | cons c rest ih =>
    exact Runs.exec_cons.mpr ⟨.accept, accept_step (h c List.mem_cons_self),
      ih fun d hd => h d (List.mem_cons_of_mem c hd)⟩

/-- The parts on both sides of a separator are UTF-8 when the whole is. -/
theorem valid_split {a b : Bytes} {d : UInt8} (hd : d < 0x80) (h : Utf8.Valid (a ++ d :: b)) :
    Utf8.Valid a ∧ Utf8.Valid b := by
  obtain ⟨u, ha, hrest⟩ := Runs.exec_append.mp h
  obtain ⟨v, hv, hb⟩ := Runs.exec_cons.mp hrest
  have hu : u = .accept := by
    by_contra hopen
    exact absurd (Utf8.high_of_step_eq_some hopen hv) (not_le_of_gt hd)
  subst hu
  obtain rfl : .accept = v := Option.some.inj ((accept_step hd).symm.trans hv)
  exact ⟨ha, hb⟩

theorem valid_getline {d : UInt8} (hd : d < 0x80) {s field rest : Bytes} (hs : Utf8.Valid s)
    (h : getline d s = some (field, rest)) : Utf8.Valid field ∧ Utf8.Valid rest := by
  rcases eq_append_or_not_mem d s with ⟨l, rest', hl, rfl⟩ | hnot
  · rw [getline_append d hl] at h
    obtain ⟨rfl, rfl⟩ := Prod.mk.inj (Option.some.inj h)
    exact valid_split hd hs
  · have hne : s ≠ [] := by
      rintro rfl
      exact absurd h (by simp)
    rw [getline_of_not_mem d hnot hne] at h
    obtain ⟨rfl, rfl⟩ := Prod.mk.inj (Option.some.inj h)
    exact ⟨hs, rfl⟩

theorem valid_getlines {d : UInt8} (hd : d < 0x80) {s : Bytes} (hs : Utf8.Valid s) :
    ∀ line ∈ getlines d s, Utf8.Valid line := by
  -- By induction on the length: every line ends with a separator or with the text.
  generalize hn : s.length = n
  induction n using Nat.strongRecOn generalizing s with
  | ind n ih =>
    intro line hline
    rcases eq_append_or_not_mem d s with ⟨l, rest, hl, rfl⟩ | hnot
    · obtain ⟨hvalid, hrest⟩ := valid_split hd hs
      rw [getlines_append d hl] at hline
      rcases List.mem_cons.mp hline with rfl | hline
      · exact hvalid
      · refine ih rest.length ?_ hrest rfl line hline
        rw [← hn, List.length_append, List.length_cons]
        omega
    · by_cases hne : s = []
      · subst hne
        exact absurd hline (by simp)
      · rw [getlines_of_not_mem d hnot hne] at hline
        rw [List.mem_singleton.mp hline]
        exact hs

end Utf8Split

open Utf8Split

/-! ## The log -/

theorem Wal.low_decimal (n : Int) : ∀ b ∈ ascii (toString n), b < 0x80 := by
  intro b hb
  obtain ⟨c, hc, rfl⟩ := List.mem_map.mp hb
  have hrange : c.toNat < 128 := by
    rw [Int.toString_eq_repr, Int.repr_eq_if] at hc
    have hdigit : ∀ m : Nat, c ∈ m.repr.toList → c.toNat < 128 := by
      intro m hm
      rw [Nat.toList_repr] at hm
      have hd := Nat.isDigit_of_mem_toDigits (by decide) (by decide) hm
      simp only [Char.isDigit, Bool.and_eq_true, decide_eq_true_eq] at hd
      have htop : c.toNat ≤ 57 := hd.2
      omega
    split at hc
    · exact hdigit _ hc
    · rw [String.toList_append] at hc
      rcases List.mem_append.mp hc with hc | hc
      · rw [List.mem_singleton.mp hc]
        decide
      · exact hdigit _ hc
  rw [UInt8.lt_iff_toNat_lt, UInt8.toNat_ofNat']
  simp only [UInt8.reduceToNat]
  omega

theorem Wal.valid_format {r : WalRecord} (hkey : Utf8.Valid r.key) (hvalue : Utf8.Valid r.value)
    (now : Int) : Utf8.Valid (Wal.format r now) := by
  have hop : Utf8.Valid r.op.text := by cases r.op <;> decide
  have hbar : Utf8.Valid [Wal.bar] := by decide
  have hfields := Utf8.valid_append (Utf8.valid_append (Utf8.valid_append (Utf8.valid_append
    (Utf8.valid_append hop hbar) hkey) hbar) hvalue) hbar
  exact Utf8.valid_append (Utf8.valid_append hfields (valid_of_low (Wal.low_decimal now)))
    (by decide)

theorem Wal.valid_of_parseLine {text : Bytes} (htext : Utf8.Valid text) {r : WalRecord}
    (h : Wal.parseLine text = some r) : Utf8.Valid r.key ∧ Utf8.Valid r.value := by
  obtain ⟨t1, t2, t3, h1, h2, h3⟩ := Wal.getline_of_parseLine h
  have ht1 := (valid_getline (by decide) htext h1).2
  obtain ⟨hkey, ht2⟩ := valid_getline (by decide) ht1 h2
  exact ⟨hkey, (valid_getline (by decide) ht2 h3).1⟩

/-! ## The contract -/

namespace Encoding

/-- Every string is UTF-8, but for those of a message that was not decoded. -/
def encoded : Contract where
  pair key value := Utf8.Valid key ∧ Utf8.Valid value
  log := Utf8.Valid
  admits msg := msg.type ≠ .unknown → Codec.ValidUtf8 msg
  answers _ reply := Codec.ValidUtf8 reply

theorem validUtf8_makeError (me : Int) {err : Bytes} (herr : Utf8.Valid err) :
    Codec.ValidUtf8 (makeError me err) :=
  ⟨valid_nil, valid_nil, herr, List.forall_mem_nil _⟩

theorem validUtf8_makeAck (me : Int) (ok : Bool) {value : Bytes} (hvalue : Utf8.Valid value) :
    Codec.ValidUtf8 (makeAck me ok value) :=
  ⟨valid_nil, hvalue, valid_nil, List.forall_mem_nil _⟩

theorem validUtf8_replicateMsg (me : Int) {key value : Bytes} (hkey : Utf8.Valid key)
    (hvalue : Utf8.Valid value) (op : MsgType) (now : Int) :
    Codec.ValidUtf8 (Replication.replicateMsg me key value op now) := by
  refine ⟨hkey, hvalue, ?_, List.forall_mem_nil _⟩
  show Utf8.Valid (if op = .put then ascii "PUT" else ascii "DEL")
  split <;> decide

theorem terms_encoded : encoded.Terms where
  put msg hmsg hput := by
    have hvalid := hmsg (by simp [hput])
    exact ⟨hvalid.key, hvalid.value⟩
  replicate msg hmsg hrepl _ := by
    have hvalid := hmsg (by simp [hrepl])
    exact ⟨hvalid.key, hvalid.value⟩
  syncData msg hmsg hsync := (hmsg (by simp [hsync])).kvPairs
  copyPut me msg now hmsg hput _ := by
    have hvalid := hmsg (by simp [hput])
    exact validUtf8_replicateMsg me hvalid.key hvalid.value .put now
  copyDel me msg now hmsg hdel _ :=
    validUtf8_replicateMsg me (hmsg (by simp [hdel])).key valid_nil .del now
  syncRequest me _ := ⟨valid_nil, valid_nil, valid_nil, List.forall_mem_nil _⟩
  found me msg value _ _ hpair := validUtf8_makeAck me true hpair.2
  done me msg _ _ := validUtf8_makeAck me true valid_nil
  missing me msg hmsg htype := by
    have hvalid := hmsg (by rcases htype with h | h <;> simp [h])
    exact validUtf8_makeError me (Utf8.valid_append (by decide) hvalid.key)
  unavailable me msg hmsg hreq := by
    have hvalid := hmsg (by rcases hreq with h | h | h <;> simp [h])
    exact ⟨validUtf8_makeError me (by decide),
      validUtf8_makeError me (Utf8.valid_append (by decide) hvalid.key)⟩
  unknown me msg _ _ := validUtf8_makeError me (by decide)
  synced me msg pairs _ hpairs := ⟨valid_nil, valid_nil, valid_nil, hpairs⟩
  snapshot me reply hreply := hreply.kvPairs

theorem lawful_encoded : encoded.Lawful := by
  refine terms_encoded.lawful (fun log key value now hlog hpair => ?_)
    (fun log key value now hlog hpair => ?_) (fun log key value hlog hvalue => ?_)
  · exact Utf8.valid_append hlog (Wal.valid_format hpair.1 hpair.2 now)
  · exact Utf8.valid_append hlog (Wal.valid_format hpair.1 valid_nil now)
  · obtain ⟨text, htext, hparse⟩ := Wal.exists_put_of_recover hvalue
    exact Wal.valid_of_parseLine (valid_getlines (by decide) hlog text htext) hparse

variable {φ : Type}

/-- Clients send bytes of any kind, and the node makes a message of them; the
services of the nodes send messages of UTF-8. -/
def Allowed (x : Externals φ) : Action → Prop
  | .invoke _ msg => ∃ received, TcpServer.request x received = some msg
  | .send packet => Codec.ValidUtf8 packet.msg
  | _ => True

theorem admits_request {x : Externals φ} (hx : x.Fits) {received : Bytes} {msg : Message}
    (h : TcpServer.request x received = some msg) : encoded.admits msg := by
  intro htype
  unfold TcpServer.request at h
  dsimp only at h
  split at h
  · exact absurd h (by simp)
  · rw [Option.some.injEq] at h
    subst h
    cases hthrown : TcpServer.thrown x (TcpServer.recvLine received) with
    | none => exact (TcpServer.wellFormed_deserializeMessage hx hthrown).utf8
    | some p =>
      rw [TcpServer.deserializeMessage_of_thrown hthrown] at htype
      exact absurd rfl htype

end Encoding
end DistributedDb
