import DistributedDb.Json.RoundTrip
import DistributedDb.Lib.Getline
import DistributedDb.Node.Startup

/-
The command line of a node.

Nothing on the command line says which peer has which id.  `--peers` lists the
addresses of the other nodes in the order of their ids, and the ids are counted
back while the list is read, leaving out the id of the node itself.  The flags
are read from left to right, so the id that is left out is the one known when
`--peers` is reached: the default when `--id` stands behind it.
-/

namespace DistributedDb
namespace Startup

open Getline

/-- What `parse_args` throws: `stoi` on a text that is no number or does not fit
in an `int`, and `parse_peer` on a token without a colon. -/
inductive ArgError where
  | invalidNumber
  | outOfRange
  | badPeer (what : Bytes)
  deriving DecidableEq, Repr

structure Config where
  nodeId : Int := 1
  port : Int := 8001
  host : Bytes := ascii "localhost"
  walPath : Bytes := ascii "./data/wal.log"
  peers : List NodeInfo := []
  deriving DecidableEq, Repr

def isSpace (c : UInt8) : Bool := decide (c = 0x20) || (decide (0x09 ≤ c) && decide (c ≤ 0x0D))

/-- `strtol` on the text behind the blanks: a sign, then digits up to the first
byte that is none. -/
def signedDigits : Bytes → Bool × Bytes
  | c :: rest =>
    if c = 0x2D then (true, rest.takeWhile Json.Numeral.digit)
    else if c = 0x2B then (false, rest.takeWhile Json.Numeral.digit)
    else (false, (c :: rest).takeWhile Json.Numeral.digit)
  | [] => (false, [])

def stoi (s : Bytes) : Except ArgError Int :=
  let p := signedDigits (s.dropWhile isSpace)
  let n : Int :=
    if p.1 then -(Json.Numeral.readDecimal p.2 : Int) else Json.Numeral.readDecimal p.2
  if p.2 = [] then .error .invalidNumber
  else if -2 ^ 31 ≤ n ∧ n < 2 ^ 31 then .ok n
  else .error .outOfRange

def colon : UInt8 := 0x3A

def comma : UInt8 := 0x2C

/-- `substr` before and after `rfind`. -/
def splitLast (d : UInt8) (s : Bytes) : Option (Bytes × Bytes) :=
  match s.reverse.dropWhile fun c => decide (c ≠ d) with
  | [] => none
  | _ :: before => some (before.reverse, (s.reverse.takeWhile fun c => decide (c ≠ d)).reverse)

/-- The host and the port of a token. -/
def readAddress (s : Bytes) : Except ArgError (Bytes × Int) :=
  match splitLast colon s with
  | none => .error (.badPeer (ascii "Bad peer: " ++ s))
  | some (host, text) => do
    let port ← stoi text
    return (host, port)

def parsePeer (s : Bytes) (idHint : Int) : Except ArgError NodeInfo := do
  let addr ← readAddress s
  return { id := idHint, host := addr.1, port := addr.2 }

/-- The `while` loop over the tokens of `--peers`, which skips empty ones. -/
def parsePeers (nodeId : Int) : Int → List Bytes → Except ArgError (List NodeInfo)
  | _, [] => return []
  | peerSeq, tok :: rest =>
    if tok = [] then parsePeers nodeId peerSeq rest
    else do
      let id := if peerSeq = nodeId then peerSeq + 1 else peerSeq
      let peer ← parsePeer tok id
      let others ← parsePeers nodeId (id + 1) rest
      return peer :: others

/-- The loop of `parse_args` over the arguments that are left.  A flag without a
value, like any text that is no flag, is skipped. -/
def parseArgs (cfg : Config) : List Bytes → Except ArgError Config
  | [] => return cfg
  | [_] => return cfg
  | arg :: value :: rest =>
    if arg = ascii "--id" then do
      let nodeId ← stoi value
      parseArgs { cfg with nodeId := nodeId } rest
    else if arg = ascii "--port" then do
      let port ← stoi value
      parseArgs { cfg with port := port } rest
    else if arg = ascii "--host" then parseArgs { cfg with host := value } rest
    else if arg = ascii "--wal" then parseArgs { cfg with walPath := value } rest
    else if arg = ascii "--peers" then do
      let peers ← parsePeers cfg.nodeId 1 (getlines comma value)
      parseArgs { cfg with peers := cfg.peers ++ peers } rest
    else parseArgs cfg (value :: rest)

/-- `all_nodes` of `main`: the node itself and then its peers. -/
def Config.allNodes (cfg : Config) : List NodeInfo :=
  { id := cfg.nodeId, host := cfg.host, port := cfg.port } :: cfg.peers

/-! ## Reading back what a launcher writes -/

theorem toNat_of_digit {c : UInt8} (h : Json.Numeral.digit c = true) :
    0x30 ≤ c.toNat ∧ c.toNat ≤ 0x39 := by
  simp only [Json.Numeral.digit, Bool.and_eq_true, decide_eq_true_eq,
    UInt8.le_iff_toNat_le] at h
  exact h

theorem decimal_ne_nil (n : Nat) : Json.decimal n ≠ [] := by
  by_cases hn : n = 0
  · subst hn
    decide
  · obtain ⟨d, rest, hdec, -⟩ := Json.decimal_eq_cons hn
    rw [hdec]
    exact List.cons_ne_nil _ _

theorem digit_of_mem_decimal {n : Nat} {c : UInt8} (hc : c ∈ Json.decimal n) :
    Json.Numeral.digit c = true := by
  by_cases hn : n = 0
  · subst hn
    rw [show Json.decimal 0 = [0x30] from rfl, List.mem_singleton] at hc
    subst hc
    rfl
  · obtain ⟨d, rest, hdec, -, hlt, hrest⟩ := Json.decimal_eq_cons hn
    rw [hdec] at hc
    rcases List.mem_cons.mp hc with rfl | hc
    · exact Json.digit_ofNat hlt
    · obtain ⟨e, he, rfl⟩ := hrest c hc
      exact Json.digit_ofNat he

theorem stoi_decimal {n : Nat} (h : n < 2 ^ 31) : stoi (Json.decimal n) = .ok n := by
  have hread := Json.readDecimal_decimal n
  have hdigits : ∀ c ∈ Json.decimal n, Json.Numeral.digit c = true := fun c => digit_of_mem_decimal
  obtain ⟨c, rest, hdec⟩ := List.exists_cons_of_ne_nil (decimal_ne_nil n)
  rw [hdec] at hdigits hread ⊢
  obtain ⟨hlow, hhigh⟩ := toNat_of_digit (hdigits c List.mem_cons_self)
  -- A digit is neither a blank nor a sign, so the whole text is the number.
  have hblank : (c :: rest).dropWhile isSpace = c :: rest := by
    refine List.dropWhile_cons_of_neg ?_
    simp only [isSpace, UInt8.le_iff_toNat_le, ← UInt8.toNat_inj, Bool.or_eq_true,
      Bool.and_eq_true, decide_eq_true_eq, UInt8.reduceToNat]
    omega
  have hminus : c ≠ 0x2D := by
    intro hc
    rw [hc] at hlow
    exact absurd hlow (by decide)
  have hplus : c ≠ 0x2B := by
    intro hc
    rw [hc] at hlow
    exact absurd hlow (by decide)
  have hsigned : signedDigits (c :: rest) = (false, c :: rest) := by
    rw [signedDigits, if_neg hminus, if_neg hplus, List.takeWhile_eq_self_iff.mpr hdigits]
  have hrange : -2 ^ 31 ≤ (n : Int) ∧ (n : Int) < 2 ^ 31 := by omega
  simp only [stoi, hblank, hsigned, hread, Bool.false_eq_true, if_false, List.cons_ne_nil,
    if_pos hrange]

theorem splitLast_append {d : UInt8} {b : Bytes} (hb : d ∉ b) (a : Bytes) :
    splitLast d (a ++ d :: b) = some (a, b) := by
  have hne : ∀ c ∈ b.reverse, decide (c ≠ d) = true := by
    intro c hc
    exact decide_eq_true fun h => hb (h ▸ List.mem_reverse.mp hc)
  have hrev : (a ++ d :: b).reverse = b.reverse ++ d :: a.reverse := by simp
  rw [splitLast, hrev, List.dropWhile_append_of_pos hne, List.takeWhile_append_of_pos hne]
  simp

/-- The token that a launcher writes for an address. -/
def token (addr : Bytes × Nat) : Bytes := addr.1 ++ colon :: Json.decimal addr.2

theorem readAddress_token {addr : Bytes × Nat} (h : addr.2 < 2 ^ 31) :
    readAddress (token addr) = .ok (addr.1, (addr.2 : Int)) := by
  have hcolon : colon ∉ Json.decimal addr.2 := by
    intro hc
    exact absurd (digit_of_mem_decimal hc) (by decide)
  rw [readAddress, token, splitLast_append hcolon]
  simp only [stoi_decimal h]
  rfl

/-! ## The flags of a launch -/

inductive Flag where
  | id
  | port
  | host
  | peers
  deriving DecidableEq, Repr

def Flag.text : Flag → Bytes
  | .id => ascii "--id"
  | .port => ascii "--port"
  | .host => ascii "--host"
  | .peers => ascii "--peers"

/-- The values that the flags are given. -/
structure Launch where
  idText : Bytes
  portText : Bytes
  host : Bytes
  peersText : Bytes

def Launch.value (v : Launch) : Flag → Bytes
  | .id => v.idText
  | .port => v.portText
  | .host => v.host
  | .peers => v.peersText

def commandLine (v : Launch) (order : List Flag) : List Bytes :=
  order.flatMap fun f => [f.text, v.value f]

/-- The ids from `first` on. -/
def idsFrom : Int → Nat → List Int
  | _, 0 => []
  | first, n + 1 => first :: idsFrom (first + 1) n

/-- The ids of the other nodes of a cluster of `n`, in ascending order. -/
def otherIds (n : Nat) (i : Int) : List Int := (idsFrom 1 n).filter fun j => decide (j ≠ i)

theorem mem_idsFrom {first : Int} {n : Nat} {j : Int} :
    j ∈ idsFrom first n ↔ first ≤ j ∧ j < first + n := by
  induction n generalizing first with
  | zero =>
    rw [idsFrom]
    simp only [List.not_mem_nil, false_iff]
    omega
  | succ n ih =>
    rw [idsFrom, List.mem_cons, ih]
    omega

theorem mem_otherIds {n : Nat} {i j : Int} : j ∈ otherIds n i ↔ 1 ≤ j ∧ j ≤ n ∧ j ≠ i := by
  rw [otherIds, List.mem_filter, mem_idsFrom, decide_eq_true_eq]
  omega

variable (addr : Int → Bytes × Int)

/-- Node `j` at its address. -/
def nodeAt (j : Int) : NodeInfo := { id := j, host := (addr j).1, port := (addr j).2 }

/-- The flags of node `i` in a cluster of `n` nodes: its own id and address, and
the addresses of all other nodes in the order of their ids.  Empty tokens may
stand anywhere between them. -/
structure Describes (n : Nat) (i : Int) (v : Launch) : Prop where
  id : stoi v.idText = .ok i
  port : stoi v.portText = .ok (addr i).2
  host : v.host = (addr i).1
  peers : ((getlines comma v.peersText).filter fun tok => decide (tok ≠ [])).map readAddress =
    (otherIds n i).map fun j => .ok (addr j)

/-- Every node has the id of its place in the cluster, and the node and its peers
together are the nodes of the cluster at their addresses. -/
def NamesPeers (n : Nat) (i : Int) (args : List Bytes) : Prop :=
  ∃ cfg, parseArgs {} args = .ok cfg ∧ cfg.nodeId = i ∧
    cfg.peers = (otherIds n i).map (nodeAt addr) ∧
    ∀ m, m ∈ cfg.allNodes ↔ ∃ j : Int, 1 ≤ j ∧ j ≤ n ∧ m = nodeAt addr j

/-! ## What the flags set -/

theorem parsePeers_eq_numberPeers (nodeId : Int) {toks : List Bytes} {addrs : List (Bytes × Int)}
    (h : (toks.filter fun tok => decide (tok ≠ [])).map readAddress = addrs.map .ok)
    (peerSeq : Int) : parsePeers nodeId peerSeq toks = .ok (numberPeers nodeId peerSeq addrs) := by
  induction toks generalizing addrs peerSeq with
  | nil =>
    obtain rfl : addrs = [] := List.map_eq_nil_iff.mp h.symm
    rfl
  | cons tok rest ih =>
    rw [parsePeers]
    by_cases htok : tok = []
    · rw [List.filter_cons_of_neg (by simpa using htok)] at h
      rw [if_pos htok, ih h]
    · rw [List.filter_cons_of_pos (by simpa using htok), List.map_cons] at h
      obtain ⟨a, others, rfl, ha, hothers⟩ := List.map_eq_cons_iff.mp h.symm
      have hpeer : ∀ id, parsePeer tok id = .ok { id := id, host := a.1, port := a.2 } := by
        intro id
        rw [parsePeer, ← ha]
        rfl
      simp only [if_neg htok, hpeer, ih hothers.symm]
      rfl

/-- The configuration after one more flag. -/
def setFlag (n : Nat) (i : Int) (cfg : Config) : Flag → Config
  | .id => { cfg with nodeId := i }
  | .port => { cfg with port := (addr i).2 }
  | .host => { cfg with host := (addr i).1 }
  | .peers =>
    { cfg with peers := cfg.peers ++ numberPeers cfg.nodeId 1 ((otherIds n i).map addr) }

variable {addr} {n : Nat} {i : Int} {v : Launch}

theorem parseArgs_flag (hv : Describes addr n i v) (cfg : Config) (f : Flag) (rest : List Bytes) :
    parseArgs cfg (f.text :: v.value f :: rest) = parseArgs (setFlag addr n i cfg f) rest := by
  cases f with
  | id => simp [parseArgs, Flag.text, Launch.value, hv.id, setFlag, Bind.bind, Except.bind]
  | port =>
    simp [parseArgs, Flag.text, Launch.value, hv.port, setFlag, Bind.bind, Except.bind,
      show ascii "--port" ≠ ascii "--id" by decide]
  | host =>
    simp [parseArgs, Flag.text, Launch.value, hv.host, setFlag,
      show ascii "--host" ≠ ascii "--id" by decide, show ascii "--host" ≠ ascii "--port" by decide]
  | peers =>
    have hpeers : parsePeers cfg.nodeId 1 (getlines comma v.peersText) =
        .ok (numberPeers cfg.nodeId 1 ((otherIds n i).map addr)) := by
      refine parsePeers_eq_numberPeers cfg.nodeId ?_ 1
      rw [hv.peers, List.map_map]
      rfl
    simp [parseArgs, Flag.text, Launch.value, hpeers, setFlag, Bind.bind, Except.bind,
      show ascii "--peers" ≠ ascii "--id" by decide,
      show ascii "--peers" ≠ ascii "--port" by decide,
      show ascii "--peers" ≠ ascii "--host" by decide,
      show ascii "--peers" ≠ ascii "--wal" by decide]

theorem parseArgs_commandLine (hv : Describes addr n i v) (cfg : Config) (order : List Flag) :
    parseArgs cfg (commandLine v order) = .ok (order.foldl (setFlag addr n i) cfg) := by
  induction order generalizing cfg with
  | nil => rfl
  | cons f rest ih =>
    show parseArgs cfg (f.text :: v.value f :: commandLine v rest) = _
    rw [parseArgs_flag hv, ih, List.foldl_cons]

/-- A field that one flag sets and the others leave alone holds the value of that
flag once the flag has been read. -/
theorem field_setFlags {α : Type} (field : Config → α) (flag : Flag) (x : α)
    (hset : ∀ cfg f, field (setFlag addr n i cfg f) = if f = flag then x else field cfg)
    (cfg : Config) (order : List Flag) :
    field (order.foldl (setFlag addr n i) cfg) = if flag ∈ order then x else field cfg := by
  induction order generalizing cfg with
  | nil => rfl
  | cons f rest ih =>
    rw [List.foldl_cons, ih, hset]
    by_cases hrest : flag ∈ rest
    · rw [if_pos hrest, if_pos (List.mem_cons_of_mem f hrest)]
    · by_cases hf : f = flag
      · rw [if_neg hrest, if_pos hf, if_pos (hf ▸ List.mem_cons_self)]
      · have hnot : flag ∉ f :: rest := fun h => (List.mem_cons.mp h).elim (Ne.symm hf) hrest
        rw [if_neg hrest, if_neg hf, if_neg hnot]

theorem nodeId_setFlags (cfg : Config) (order : List Flag) :
    (order.foldl (setFlag addr n i) cfg).nodeId = if Flag.id ∈ order then i else cfg.nodeId :=
  field_setFlags Config.nodeId .id i (fun _ f => by cases f <;> rfl) cfg order

theorem port_setFlags (cfg : Config) (order : List Flag) :
    (order.foldl (setFlag addr n i) cfg).port =
      if Flag.port ∈ order then (addr i).2 else cfg.port :=
  field_setFlags Config.port .port (addr i).2 (fun _ f => by cases f <;> rfl) cfg order

theorem host_setFlags (cfg : Config) (order : List Flag) :
    (order.foldl (setFlag addr n i) cfg).host =
      if Flag.host ∈ order then (addr i).1 else cfg.host :=
  field_setFlags Config.host .host (addr i).1 (fun _ f => by cases f <;> rfl) cfg order

theorem peers_setFlags (cfg : Config) {order : List Flag} (h : Flag.peers ∉ order) :
    (order.foldl (setFlag addr n i) cfg).peers = cfg.peers := by
  induction order generalizing cfg with
  | nil => rfl
  | cons f rest ih =>
    rw [List.foldl_cons, ih _ fun hmem => h (List.mem_cons_of_mem f hmem)]
    cases f with
    | peers => exact absurd List.mem_cons_self h
    | id | port | host => rfl

/-! ## The numbers of the peers -/

/-- The id of the node itself is never given out. -/
theorem numberPeers_self (i : Int) (addrs : List (Bytes × Int)) :
    numberPeers i i addrs = numberPeers i (i + 1) addrs := by
  cases addrs with
  | nil => rfl
  | cons a rest =>
    have hne : i + 1 ≠ i := by omega
    simp only [numberPeers, if_true, if_neg hne]

/-- With its own id known, the node gives the other ids back to their addresses. -/
theorem numberPeers_idsFrom (addr : Int → Bytes × Int) (i first : Int) (m : Nat) :
    numberPeers i first (((idsFrom first m).filter fun j => decide (j ≠ i)).map addr) =
      ((idsFrom first m).filter fun j => decide (j ≠ i)).map (nodeAt addr) := by
  induction m generalizing first with
  | zero => rfl
  | succ m ih =>
    rw [idsFrom]
    by_cases hself : first = i
    · subst hself
      rw [List.filter_cons_of_neg (by simp), numberPeers_self, ih]
    · rw [List.filter_cons_of_pos (by simpa using hself), List.map_cons, List.map_cons, numberPeers,
        if_neg hself, ih]
      rfl

theorem numberPeers_otherIds (addr : Int → Bytes × Int) (n : Nat) (i : Int) :
    numberPeers i 1 ((otherIds n i).map addr) = (otherIds n i).map (nodeAt addr) :=
  numberPeers_idsFrom addr i 1 n

/-- With the default id in its place, node 1 is given the id 2. -/
theorem numberPeers_default_ne (hi : 1 < i) (hn : i ≤ n) :
    numberPeers 1 1 ((otherIds n i).map addr) ≠ (otherIds n i).map (nodeAt addr) := by
  obtain ⟨m, rfl⟩ : ∃ m, n = m + 1 := ⟨n - 1, by omega⟩
  have hcons : otherIds (m + 1) i = 1 :: (idsFrom (1 + 1) m).filter fun j => decide (j ≠ i) := by
    have hfirst : (1 : Int) ≠ i := by omega
    rw [otherIds, idsFrom, List.filter_cons_of_pos (by simpa using hfirst)]
  rw [hcons, List.map_cons, List.map_cons, numberPeers]
  intro h
  have hid : (1 + 1 : Int) = 1 := congrArg NodeInfo.id (List.cons.inj h).1
  omega

/-- The flags split at `--peers`. -/
theorem exists_split {order : List Flag} (h : order.Perm [.id, .port, .host, .peers]) :
    ∃ before after, order = before ++ .peers :: after ∧ Flag.peers ∉ before ∧
      Flag.peers ∉ after ∧ (Flag.id ∈ before ↔ order.idxOf .id < order.idxOf .peers) := by
  have hmem : ∀ f : Flag, f ∈ order := by
    intro f
    rw [h.mem_iff]
    cases f <;> decide
  have hnodup : order.Nodup := h.nodup_iff.mpr (by decide)
  obtain ⟨before, after, rfl⟩ := List.append_of_mem (hmem .peers)
  obtain ⟨-, hafter, hdisjoint⟩ := List.nodup_append.mp hnodup
  have hbefore : Flag.peers ∉ before := fun hp =>
    hdisjoint .peers hp .peers List.mem_cons_self rfl
  refine ⟨before, after, rfl, hbefore, (List.nodup_cons.mp hafter).1, ?_⟩
  rw [List.idxOf_append_of_notMem hbefore, List.idxOf_cons_self]
  constructor
  · intro hid
    rw [List.idxOf_append_of_mem hid]
    have hlt := List.idxOf_lt_length_of_mem hid
    omega
  · intro hlt
    by_contra hid
    rw [List.idxOf_append_of_notMem hid] at hlt
    omega

/-- The flags may come in any order: the nodes of the cluster get their ids
exactly when `--id` stands before `--peers`, or the id is the default one. -/
theorem parseArgs_names_peers_iff (hi : 1 ≤ i) (hn : i ≤ n) (hv : Describes addr n i v)
    {order : List Flag} (horder : order.Perm [.id, .port, .host, .peers]) :
    NamesPeers addr n i (commandLine v order) ↔
      order.idxOf .id < order.idxOf .peers ∨ i = 1 := by
  obtain ⟨before, after, hsplit, hbefore, hafter, hid⟩ := exists_split horder
  let cfg := order.foldl (setFlag addr n i) {}
  have hmem : ∀ f : Flag, f ∈ order := by
    intro f
    rw [horder.mem_iff]
    cases f <;> decide
  have hnode : cfg.nodeId = i := by
    rw [nodeId_setFlags, if_pos (hmem .id)]
  have hport : cfg.port = (addr i).2 := by
    rw [port_setFlags, if_pos (hmem .port)]
  have hhost : cfg.host = (addr i).1 := by
    rw [host_setFlags, if_pos (hmem .host)]
  have hpeers : cfg.peers =
      numberPeers (if Flag.id ∈ before then i else 1) 1 ((otherIds n i).map addr) := by
    show (order.foldl (setFlag addr n i) {}).peers = _
    rw [hsplit, List.foldl_append, List.foldl_cons, peers_setFlags _ hafter, setFlag,
      peers_setFlags _ hbefore, nodeId_setFlags]
    rfl
  have hself : ({ id := cfg.nodeId, host := cfg.host, port := cfg.port } : NodeInfo) =
      nodeAt addr i := by
    rw [hnode, hport, hhost, nodeAt]
  unfold NamesPeers
  rw [parseArgs_commandLine hv]
  constructor
  · rintro ⟨cfg', hcfg, -, hnamed, -⟩
    obtain rfl : cfg = cfg' := Except.ok.inj hcfg
    rw [hpeers] at hnamed
    by_cases hbef : Flag.id ∈ before
    · exact Or.inl (hid.mp hbef)
    · rw [if_neg hbef] at hnamed
      by_contra hcond
      exact numberPeers_default_ne (by omega) hn hnamed
  · intro hcond
    have hnamed : cfg.peers = (otherIds n i).map (nodeAt addr) := by
      rw [hpeers, ← numberPeers_otherIds]
      rcases hcond with hlt | rfl
      · rw [if_pos (hid.mpr hlt)]
      · rw [ite_self]
    refine ⟨cfg, rfl, hnode, hnamed, fun m => ?_⟩
    rw [Config.allNodes, hself, hnamed, List.mem_cons, List.mem_map]
    constructor
    · rintro (rfl | ⟨j, hj, rfl⟩)
      · exact ⟨i, hi, hn, rfl⟩
      · obtain ⟨hlow, hhigh, -⟩ := mem_otherIds.mp hj
        exact ⟨j, hlow, hhigh, rfl⟩
    · rintro ⟨j, hlow, hhigh, rfl⟩
      by_cases hj : j = i
      · exact Or.inl (by rw [hj])
      · exact Or.inr ⟨j, mem_otherIds.mpr ⟨hlow, hhigh, hj⟩, rfl⟩

/-- What a launcher writes in decimal is read as it is meant. -/
theorem describes_of_tokens (hosts : Int → Bytes) (ports : Int → Nat) {n i : Nat} (hi : 1 ≤ i)
    (hn : i ≤ n) (hint : i < 2 ^ 31) (hports : ∀ j : Int, 1 ≤ j → j ≤ n → ports j < 2 ^ 31)
    {peersText : Bytes}
    (h : ((getlines comma peersText).filter fun tok => decide (tok ≠ [])) =
      (otherIds n i).map fun j => token (hosts j, ports j)) :
    Describes (fun j => (hosts j, ports j)) n i
      { idText := Json.decimal i
        portText := Json.decimal (ports i)
        host := hosts i
        peersText := peersText } where
  id := stoi_decimal hint
  port := stoi_decimal (hports i (by omega) (by omega))
  host := rfl
  peers := by
    rw [h, List.map_map]
    refine List.map_congr_left fun j hj => ?_
    obtain ⟨hlow, hhigh, -⟩ := mem_otherIds.mp hj
    exact readAddress_token (hports j hlow hhigh)

/-- Node `j` of the launch script listens on port `8000 + j`. -/
def launchPort (j : Int) : Nat := (8000 + j).toNat

/-- Node 2 of three, with an empty token between its two peers. -/
theorem describes_launch :
    Describes (fun j => (ascii "localhost", launchPort j)) 3 (2 : Nat)
      { idText := Json.decimal 2
        portText := Json.decimal (launchPort (2 : Nat))
        host := ascii "localhost"
        peersText := ascii "localhost:8001,,localhost:8003" } := by
  refine describes_of_tokens (fun _ => ascii "localhost") launchPort (by decide) (by decide)
    (by decide) (fun j _ hj => ?_) (by decide +kernel)
  unfold launchPort
  omega

theorem parseArgs_names_peers_launch :
    NamesPeers (fun j => (ascii "localhost", launchPort j)) 3 (2 : Nat)
      (commandLine
        { idText := Json.decimal 2
          portText := Json.decimal (launchPort (2 : Nat))
          host := ascii "localhost"
          peersText := ascii "localhost:8001,,localhost:8003" } [.port, .id, .host, .peers]) :=
  (parseArgs_names_peers_iff (by decide) (by decide) describes_launch (by decide)).mpr
    (Or.inl (by decide))

/-- With `--peers` first, node 2 takes node 1 for node 2. -/
theorem parseArgs_misnames_peers :
    Describes (fun j => (ascii "localhost", launchPort j)) 3 (2 : Nat)
      { idText := Json.decimal 2
        portText := Json.decimal (launchPort (2 : Nat))
        host := ascii "localhost"
        peersText := ascii "localhost:8001,,localhost:8003" } ∧
    ¬ NamesPeers (fun j => (ascii "localhost", launchPort j)) 3 (2 : Nat)
      (commandLine
        { idText := Json.decimal 2
          portText := Json.decimal (launchPort (2 : Nat))
          host := ascii "localhost"
          peersText := ascii "localhost:8001,,localhost:8003" } [.peers, .id, .port, .host]) := by
  refine ⟨describes_launch, ?_⟩
  rintro ⟨cfg, hcfg, -, hpeers, -⟩
  rw [parseArgs_commandLine describes_launch] at hcfg
  obtain rfl := Except.ok.inj hcfg
  exact absurd hpeers (by decide +kernel)

end Startup
end DistributedDb
