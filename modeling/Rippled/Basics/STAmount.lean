import Rippled.Basics.BaseUInt

namespace Rippled

structure Issue where
  currency : Uint160
  account : Uint160
deriving DecidableEq

/-- An amount of XRP in drops, or an amount `value * 10 ^ offset` of an issued currency. -/
structure STAmount where
  issue : Issue
  value : Nat
  offset : Int
  isNative : Bool
  isNegative : Bool
deriving DecidableEq

namespace STAmount

def xrp (a : STAmount) : Int := if a.isNegative then -a.value else a.value

end STAmount

end Rippled
