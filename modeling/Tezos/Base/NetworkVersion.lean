import Mathlib.Data.Int.Order.Basic

/-! The versions two nodes speak (`lib_base/network_version.ml`). A node announces the greatest versions it knows and
    chooses one from what the other announces. -/

namespace Tezos

structure NetworkVersion where
  chainName : String
  distributedDbVersion : Int
  p2pVersion : Int
  deriving DecidableEq

namespace NetworkVersion

/-- What the functions below are called with. Both lists are asserted not to be empty. -/
structure Local where
  chainName : String
  distributedDbVersions : List Int
  p2pVersions : List Int
  distributedDbVersions_ne : distributedDbVersions ≠ []
  p2pVersions_ne : p2pVersions ≠ []

def greatest : (versions : List Int) → versions ≠ [] → Int
  | h :: t, _ => t.foldl max h

def announced (node : Local) : NetworkVersion :=
  { chainName := node.chainName
    distributedDbVersion := greatest node.distributedDbVersions node.distributedDbVersions_ne
    p2pVersion := greatest node.p2pVersions node.p2pVersions_ne }

def maySelectVersion (acceptedVersions : List Int) (ne : acceptedVersions ≠ []) (remoteVersion : Int) : Option Int :=
  let bestLocalVersion := greatest acceptedVersions ne
  if bestLocalVersion ≤ remoteVersion then some bestLocalVersion
  else if remoteVersion ∈ acceptedVersions then some remoteVersion
  else none

def select (node : Local) (remote : NetworkVersion) : Option NetworkVersion :=
  if node.chainName ≠ remote.chainName then none
  else do
    let distributedDbVersion ←
      maySelectVersion node.distributedDbVersions node.distributedDbVersions_ne remote.distributedDbVersion
    let p2pVersion ← maySelectVersion node.p2pVersions node.p2pVersions_ne remote.p2pVersion
    some ⟨node.chainName, distributedDbVersion, p2pVersion⟩

end NetworkVersion
end Tezos
