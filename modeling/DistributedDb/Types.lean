import Mathlib.Data.List.Defs

/-
The data that travels between the components: byte strings, node descriptions
and messages.
-/

namespace DistributedDb

/-- A `std::string`: any sequence of bytes, with no terminator and no encoding. -/
abbrev Bytes := List UInt8

/-- The bytes of a literal of the source, all of which are ASCII. -/
def ascii (s : String) : Bytes := s.toList.map fun c => UInt8.ofNat c.toNat

inductive MsgType where
  | put
  | get
  | del
  | replicate
  | heartbeat
  | election
  | leader
  | ack
  | syncRequest
  | syncData
  | unknown
  deriving DecidableEq, Repr

structure NodeInfo where
  id : Int
  host : Bytes
  port : Int
  alive : Bool := true
  deriving DecidableEq, Repr

/-- The node the launch script starts under `id`: `localhost`, port `8000 + id`. -/
def launchNode (id : Int) : NodeInfo := { id := id, host := ascii "localhost", port := 8000 + id }

/-- One newline-delimited JSON message.  Every field has the default the source
gives it, so that a reply is written by the fields it sets. -/
structure Message where
  type : MsgType := .unknown
  key : Bytes := []
  value : Bytes := []
  nodeId : Int := 0
  term : Int := 0
  timestamp : Int := 0
  success : Bool := false
  error : Bytes := []
  kvPairs : List (Bytes × Bytes) := []
  deriving DecidableEq, Repr

end DistributedDb
