import DistributedDb.Json.Accepted
import DistributedDb.Node.TcpServer

/-
A request that is handed on.

A node that is not the primary of a key prints the message it has decoded and
sends it to another node, which decodes it again.  The text it prints is its own
and not the line it received: unknown members are gone, escapes are resolved and
numbers are cut to their types.  What the decoder accepts fits the message type,
so the second text always exists and is read as the same message.
-/

namespace DistributedDb

variable {φ : Type}

/-- The conversions of a floating-point number to `int` and to `int64_t` give
numbers of these types. -/
structure Externals.Fits (x : Externals φ) : Prop where
  int : ∀ d, -2 ^ 31 ≤ x.floatToInt d ∧ x.floatToInt d < 2 ^ 31
  int64 : ∀ d, -2 ^ 63 ≤ x.floatToInt64 d ∧ x.floatToInt64 d < 2 ^ 63

namespace TcpServer

open Codec Json

/-! ## What a read gives -/

theorem valid_getString {v : Json φ} (hv : Accepted v) {s : Bytes} (h : v.getString = .ok s) :
    Utf8.Valid s := by
  cases hv with
  | string hs => exact Except.ok.inj h ▸ hs
  | _ => exact absurd h (by simp [getString])

theorem range_getInt {x : Externals φ} (hx : x.Fits) {v : Json φ} {n : Int}
    (h : v.getInt x = .ok n) : -2 ^ 31 ≤ n ∧ n < 2 ^ 31 := by
  cases v with
  | integer m =>
    rw [← Except.ok.inj h]
    have hlow := Int.le_bmod (x := m) (m := 2 ^ 32) (by decide)
    have hhigh := Int.bmod_lt (x := m) (m := 2 ^ 32) (by decide)
    omega
  | float d => exact Except.ok.inj h ▸ hx.int d
  | boolean b =>
    rw [← Except.ok.inj h]
    cases b <;> decide
  | _ => exact absurd h (by simp [getInt])

theorem range_getInt64 {x : Externals φ} (hx : x.Fits) {v : Json φ} {n : Int}
    (h : v.getInt64 x = .ok n) : -2 ^ 63 ≤ n ∧ n < 2 ^ 63 := by
  cases v with
  | integer m =>
    rw [← Except.ok.inj h]
    have hlow := Int.le_bmod (x := m) (m := 2 ^ 64) (by decide)
    have hhigh := Int.bmod_lt (x := m) (m := 2 ^ 64) (by decide)
    omega
  | float d => exact Except.ok.inj h ▸ hx.int64 d
  | _ => exact absurd h (by simp [getInt64])

theorem accepted_of_lookup {members : List (Bytes × Json φ)} (h : Accepted (.object members))
    {key : Bytes} {v : Json φ} (hv : lookup key members = some v) : Accepted v := by
  obtain ⟨e, he, rfl⟩ := Option.map_eq_some_iff.mp hv
  cases h with
  | object hsorted hkeys hmembers => exact hmembers e (List.mem_of_find?_eq_some he)

/-- A member that was read, or the default in its place. -/
theorem value_eq_ok {α : Type} {j : Json φ} (hj : Accepted j) {key : Bytes} {default a : α}
    {get : Json φ → Except Bytes α} (h : j.value key default get = .ok a) :
    a = default ∨ ∃ v, Accepted v ∧ get v = .ok a := by
  cases j with
  | object members =>
    rw [Json.value] at h
    cases hv : lookup key members with
    | none =>
      rw [hv] at h
      exact Or.inl (Except.ok.inj h).symm
    | some v =>
      rw [hv] at h
      exact Or.inr ⟨v, accepted_of_lookup hj hv, h⟩
  | _ => exact absurd h (by simp [Json.value])

theorem accepted_of_mem_pairs {j : Json φ} (hj : Accepted j) {v : Json φ} (hv : v ∈ pairs j) :
    Accepted v := by
  cases j with
  | object members =>
    rw [pairs] at hv
    cases hl : lookup (ascii "kv_pairs") members with
    | none =>
      rw [hl] at hv
      exact absurd hv List.not_mem_nil
    | some w =>
      rw [hl] at hv
      have hw := accepted_of_lookup hj hl
      cases hw with
      | null => exact absurd hv List.not_mem_nil
      | array hitems => exact hitems v hv
      | object hsorted hkeys hmembers =>
        obtain ⟨e, he, rfl⟩ := List.mem_map.mp hv
        exact hmembers e he
      | boolean b => exact List.mem_singleton.mp hv ▸ .boolean b
      | integer hlow hhigh => exact List.mem_singleton.mp hv ▸ .integer hlow hhigh
      | float d => exact List.mem_singleton.mp hv ▸ .float d
      | string hs => exact List.mem_singleton.mp hv ▸ .string hs
  | _ => exact absurd hv List.not_mem_nil

theorem accepted_item {v w : Json φ} (hv : Accepted v) {i : Nat} (h : v.item i = .ok w) :
    Accepted w := by
  cases hv with
  | null => exact Except.ok.inj h ▸ .null
  | @array items hitems =>
    rw [← Except.ok.inj h, List.getD_eq_getElem?_getD]
    cases hi : items[i]? with
    | none => exact .null
    | some u => exact hitems u (List.mem_of_getElem? hi)
  | _ => exact absurd h (by simp [Json.item])

/-! ## What the assignments build -/

/-- The strings are UTF-8 and the integers fit their types. -/
structure WellFormed (m : Message) : Prop where
  range : InRange m
  utf8 : ValidUtf8 m

theorem wellFormed_default : WellFormed {} where
  range := ⟨by decide, by decide, by decide⟩
  utf8 := ⟨by decide, by decide, by decide, List.forall_mem_nil _⟩

theorem wellFormed_pushPair {pair : Json φ} (hpair : Accepted pair) {m m' : Message}
    (hm : WellFormed m) (h : pushPair pair m = .ok m') : WellFormed m' := by
  obtain ⟨first, hfirst, h⟩ := bind_eq_ok h
  obtain ⟨k, hk, h⟩ := bind_eq_ok h
  obtain ⟨second, hsecond, h⟩ := bind_eq_ok h
  obtain ⟨v, hv, h⟩ := bind_eq_ok h
  rw [← Except.ok.inj h]
  refine ⟨{ hm.range with }, { hm.utf8 with kvPairs := fun p hp => ?_ }⟩
  rcases List.mem_append.mp hp with hp | hp
  · exact hm.utf8.kvPairs p hp
  · rw [List.mem_singleton.mp hp]
    exact ⟨valid_getString (accepted_item hpair hfirst) hk,
      valid_getString (accepted_item hpair hsecond) hv⟩

theorem wellFormed_assignment {x : Externals φ} (hx : x.Fits) {j : Json φ} (hj : Accepted j)
    {f : Message → Except Bytes Message} (hf : f ∈ assignments x j) {m m' : Message}
    (h : f m = .ok m') (hm : WellFormed m) : WellFormed m' := by
  have hstring : ∀ {key s : Bytes}, j.value key [] getString = .ok s → Utf8.Valid s := by
    intro key s hread
    rcases value_eq_ok hj hread with rfl | ⟨v, hv, hget⟩
    · decide
    · exact valid_getString hv hget
  have hint : ∀ {key : Bytes} {n : Int}, j.value key 0 (getInt x) = .ok n →
      -2 ^ 31 ≤ n ∧ n < 2 ^ 31 := by
    intro key n hread
    rcases value_eq_ok hj hread with rfl | ⟨v, -, hget⟩
    · decide
    · exact range_getInt hx hget
  have hint64 : ∀ {key : Bytes} {n : Int}, j.value key 0 (getInt64 x) = .ok n →
      -2 ^ 63 ≤ n ∧ n < 2 ^ 63 := by
    intro key n hread
    rcases value_eq_ok hj hread with rfl | ⟨v, -, hget⟩
    · decide
    · exact range_getInt64 hx hget
  rcases List.mem_append.mp hf with hf | hf
  · simp only [List.mem_cons, List.not_mem_nil, or_false] at hf
    rcases hf with rfl | rfl | rfl | rfl | rfl | rfl | rfl | rfl
    all_goals obtain ⟨a, hread, rfl⟩ := assign_eq_ok h
    · exact ⟨{ hm.range with }, { hm.utf8 with }⟩
    · exact ⟨{ hm.range with }, { hm.utf8 with key := hstring hread }⟩
    · exact ⟨{ hm.range with }, { hm.utf8 with value := hstring hread }⟩
    · exact ⟨{ hm.range with nodeId := hint hread }, { hm.utf8 with }⟩
    · exact ⟨{ hm.range with term := hint hread }, { hm.utf8 with }⟩
    · exact ⟨{ hm.range with timestamp := hint64 hread }, { hm.utf8 with }⟩
    · exact ⟨{ hm.range with }, { hm.utf8 with }⟩
    · exact ⟨{ hm.range with }, { hm.utf8 with error := hstring hread }⟩
  · obtain ⟨pair, hpair, rfl⟩ := List.mem_map.mp hf
    exact wellFormed_pushPair (accepted_of_mem_pairs hj hpair) hm h

theorem wellFormed_deserializeMessage {x : Externals φ} (hx : x.Fits) {line : Bytes}
    (h : thrown x line = none) : WellFormed (deserializeMessage x line) := by
  unfold thrown at h
  unfold deserializeMessage
  cases hparse : Json.parse x line with
  | error what => simp [hparse] at h
  | ok j =>
    have hall : WellFormed (assignAll (assignments x j) {}).1 :=
      assignAll_invariant (P := WellFormed)
        (fun f hf m m' hok hm => wellFormed_assignment hx (accepted_of_parse hparse) hf hok hm)
        wellFormed_default
    simp only [hparse] at h ⊢
    cases hm : assignAll (assignments x j) {} with
    | mk m failure =>
      rw [hm] at h hall
      cases failure with
      | none => exact hall
      | some what => exact absurd h (by simp)

/-! ## The next node -/

/-- The text of a well-formed message is dispatched as that message. -/
theorem request_serializeMessage (x : Externals φ) {m : Message} (hm : WellFormed m) :
    ∃ text, serializeMessage x m = some text ∧ ∀ rest, request x (text ++ rest) = some m := by
  obtain ⟨json, hjson⟩ := exists_dump_toJson x hm.utf8
  refine ⟨json ++ [newline], by rw [serializeMessage, hjson]; rfl, fun rest => ?_⟩
  have hline : recvLine (json ++ [newline] ++ rest) = json := by
    rw [List.append_assoc, List.singleton_append,
      recvLine_append (newline_not_mem_dump hm.range hjson)]
  have hne : json ≠ [] := by
    rintro rfl
    have hcut := Json.parse_dump (readable_toJson hm.range) hjson
    exact absurd hcut
      (by simp [Json.parse, Json.skipBom, Json.byteOrderMark, Runs.exec, Json.finish])
  rw [request, hline]
  simp only [if_neg hne, deserializeMessage_dump x hm.range hjson]

/-- Whatever line a request came in on, the text a node prints to hand it on
exists and is dispatched by the next node as the same message. -/
theorem relayed_request_unchanged (x : Externals φ) (hx : x.Fits) (line : Bytes)
    (h : (deserializeMessage x line).type ≠ .unknown) :
    ∃ text, serializeMessage x (deserializeMessage x line) = some text ∧
      ∀ rest, request x (text ++ rest) = some (deserializeMessage x line) := by
  have haccepted : thrown x line = none := by
    cases hthrown : thrown x line with
    | none => rfl
    | some p =>
      rw [deserializeMessage_of_thrown hthrown] at h
      exact absurd rfl h
  exact request_serializeMessage x (wellFormed_deserializeMessage hx haccepted)

/-- A key that is written as a surrogate pair, a member that the codec does not
know, and an id beyond 32 bits. -/
def escapedPut : Bytes :=
  ascii "\x7b\"ttl\": [60], \"type\": \"PUT\", \"key\": \"\\ud83d\\ude00\", " ++
    ascii "\"value\": \"v\", \"node_id\": 4294967297\x7d"

theorem relayed_request_unchanged_escapedPut :
    ∃ text, serializeMessage integersOnly (deserializeMessage integersOnly escapedPut) = some text ∧
      ∀ rest, request integersOnly (text ++ rest) =
        some (deserializeMessage integersOnly escapedPut) :=
  relayed_request_unchanged integersOnly ⟨fun d => d.elim, fun d => d.elim⟩ escapedPut
    (by decide +kernel)

end TcpServer
end DistributedDb
