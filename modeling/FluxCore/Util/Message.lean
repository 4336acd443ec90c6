import Mathlib.Data.UInt

/-!
# Message Credentials

The part of a message's credential that the KVS modules look at, after
`libflux/message.h`.
-/

namespace FluxCore

/-- `FLUX_ROLE_OWNER`. -/
def roleOwner : UInt32 := 1

/-- `FLUX_USERID_UNKNOWN`. -/
def useridUnknown : UInt32 := 0xFFFFFFFF

/-- `FLUX_MATCHTAG_NONE`. -/
def matchtagNone : UInt32 := 0

/-- The credential of a request. -/
structure Cred where
  rolemask : UInt32
  userid : UInt32
deriving DecidableEq

/-- The credential has the role of the instance owner. -/
def Cred.isOwner (cred : Cred) : Bool := cred.rolemask &&& roleOwner != 0

end FluxCore
