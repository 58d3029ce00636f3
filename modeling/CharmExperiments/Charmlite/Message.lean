import Mathlib.Data.BitVec

/-!
# charmlite: indices, endpoints, messages

`archive/charmlite/include/common.hh`, `destination.hh`, `message.hh`. A message
is modelled with an endpoint destination (`kind_ == kEndpoint`), the only kind
the collectives see; the contents beyond the routing fields are its identity.

Mirroring notes:
- `chare_index_t` is 64 bits wide: with the `-std=c++11` of `common.mk`
  `std::is_integral` does not hold of a 128-bit integer type.
- `bcast` is set to 0 by the aggregate initialisation in the constructor of
  `destination`, which names the other three fields only.
- `id` tells messages apart, as their addresses do; a clone keeps the id of
  the message it was copied from.
-/

namespace CharmExperiments.Charmlite

/-- `collective_index_t`. -/
structure CollectiveIndex where
  pe : BitVec 32
  id : BitVec 32
deriving DecidableEq, Repr, Inhabited

/-- `chare_index_t`. -/
abbrev ChareIndex := BitVec 64

/-- `bcast_id_t`. -/
abbrev BcastId := BitVec 16

/-- `chare_bcast_root_`, the largest `chare_index_t`. -/
def chareBcastRoot : ChareIndex := BitVec.allOnes 64

/-- `index_view<int>::encode`. -/
def encode (i : Int) : ChareIndex := BitVec.ofInt 64 i

/-- `cmk::all`. -/
def all : Int := -1

/-- Which message: the PE that allocated it and its number there. -/
structure MessageId where
  pe : Nat
  seq : Nat
deriving DecidableEq, Repr

/-- `entry_id_t`, with the `is_constructor_` of its record: `constructor<T, M>()` and
`entry<F, f>()` register the one and the other. -/
structure Entry where
  id : Nat
  isConstructor : Bool
deriving DecidableEq, Repr

/-- A message to an endpoint: `s_endpoint_` and the `has_collective_kind` flag. -/
structure Message where
  id : MessageId
  collectiveKind : Bool
  collective : CollectiveIndex
  chare : ChareIndex
  entry : Entry
  bcast : BcastId
deriving DecidableEq, Repr

/-- `message::is_broadcast`, for an endpoint. -/
def Message.isBroadcast (msg : Message) : Bool :=
  msg.bcast != 0 || msg.chare == chareBcastRoot

end CharmExperiments.Charmlite
