import Std.Data.TreeMap

namespace Arbiter

structure Canceled where
  deriving DecidableEq, Repr

def Canceled.message (_ : Canceled) : String := "operation canceled"

structure Tokens where
  flags : Array Bool
  names : Std.TreeMap String Nat

namespace Tokens

def empty : Tokens := ⟨#[], ∅⟩

instance : EmptyCollection Tokens := ⟨empty⟩

def create (t : Tokens) (name : String) : Tokens :=
  ⟨t.flags.push false, t.names.insert name t.flags.size⟩

def ensure (t : Tokens) (name : String) : Tokens :=
  if t.names.contains name then t else t.create name

def share (t : Tokens) (name source : String) : Tokens :=
  let t := t.ensure source
  match t.names[source]? with
  | some i => { t with names := t.names.insert name i }
  | none => t

def cancel (t : Tokens) (name : String) : Tokens :=
  let t := t.ensure name
  match t.names[name]? with
  | some i => { t with flags := t.flags.setIfInBounds i true }
  | none => t

def isCanceled (t : Tokens) (name : String) : Bool :=
  (t.names[name]?.bind fun i => t.flags[i]?).getD false

def check (t : Tokens) (name : String) : Except Canceled Unit :=
  if t.isCanceled name then .error ⟨⟩ else .ok ()

def toList (t : Tokens) : List (String × Bool) :=
  t.names.keys.map fun name => (name, t.isCanceled name)

end Tokens

end Arbiter
