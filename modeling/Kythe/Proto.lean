import Kythe.Bytes

/-!
# Storage messages

The messages of `kythe.proto.storage` the packages read and build, with the fields they
use.  A message field holding another message is a pointer in Go and may be `nil`; it is an
`Option` here.  Strings and byte fields are `Bytes`, `int64` fields are `Int`.
-/

namespace Kythe

/-- `spb.VName`: the name of a node. -/
structure VName where
  signature : Bytes
  corpus : Bytes
  root : Bytes
  path : Bytes
  language : Bytes
  deriving DecidableEq, Repr

/-- The fields of a VName, in the order `encodeVName` joins them. -/
def VName.fields (v : VName) : List Bytes :=
  [v.signature, v.corpus, v.root, v.path, v.language]

/-- `spb.Entry`: a fact of a node (empty `edgeKind`, `nil` target) or of an edge. -/
structure Entry where
  source : Option VName
  factName : Bytes
  edgeKind : Bytes
  target : Option VName
  factValue : Bytes
  deriving DecidableEq, Repr

/-- `spb.ReadRequest`. -/
structure ReadRequest where
  source : Option VName
  edgeKind : Bytes
  deriving DecidableEq, Repr

/-- `spb.WriteRequest_Update`: one fact to write for the request's source. -/
structure Update where
  edgeKind : Bytes
  target : Option VName
  factName : Bytes
  factValue : Bytes
  deriving DecidableEq, Repr

/-- `spb.WriteRequest`. -/
structure WriteRequest where
  source : Option VName
  update : List Update
  deriving DecidableEq, Repr

/-- `spb.CountRequest` and `spb.ShardRequest`: a shard of a given number of shards. -/
structure ShardRequest where
  shards : Int
  index : Int
  deriving DecidableEq, Repr

end Kythe
