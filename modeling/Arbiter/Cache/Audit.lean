import Arbiter.Cache

namespace Arbiter

namespace Cache

universe u

variable {α : Type u}

def auditKey (c : Cache α) : String × Slot → Except Fault Unit
  | (key, s) => do
    if c.owner? s ≠ some key then throw (.notOwned s key)
    if !c.links.isLinked s then throw (.notListed s)

def audit (c : Cache α) : Except Fault Unit := do
  c.links.audit.mapError .links
  if c.links.length + c.links.freeLength ≠ c.capacity then throw .leftDetached
  if c.size ≠ c.links.length then throw (.keyCount c.size c.links.length)
  c.table.toList.forM c.auditKey
  if c.owners.cells.toList.countP Option.isSome ≠ c.size then throw .owners

end Cache

end Arbiter
