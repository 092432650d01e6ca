import Arbiter.Cache.Get
import Arbiter.Sha256

namespace Arbiter

universe u v

namespace Decision

structure Request where
  module : String
  entrypoint : String
  input : List UInt8
  deriving DecidableEq, Repr

structure Key where
  text : String
  deriving DecidableEq, Repr

def Request.key (r : Request) : Key :=
  ⟨r.module ++ ":" ++ r.entrypoint ++ ":" ++ Hex.encode (Sha256.digest r.input)⟩

def ranking (keys : List Key) : List Nat :=
  (keys.zipIdx.mergeSort fun a b => a.1.text ≤ b.1.text).map Prod.snd

def firstEqual (keys : List Key) : List Nat := keys.map keys.idxOf

structure Config where
  capacity : Nat
  ttl : Duration
  deriving DecidableEq, Repr

def Config.standard : Config := ⟨1024, .ofSeconds 60⟩

end Decision

structure Decisions (α : Type u) where
  cache : Cache α
  ttl : Duration

namespace Decisions

open Decision

variable {α : Type u} {ε : Type v}

def new? (config : Config) : Except ConfigError (Decisions α) :=
  if config.capacity = 0 then .error .zeroDecisionCapacity
  else .ok ⟨.ofCapacity config.capacity, config.ttl⟩

def decide (d : Decisions α) (now : Instant) (key : Key)
    (evaluate : String → Except (LoadError ε) α) : Decisions α × Option (Cache.Served ε α) :=
  let (cache, served) := d.cache.get now key.text d.ttl evaluate
  ({ d with cache }, served)

def cached (d : Decisions α) (now : Instant) (key : Key) : Option α := d.cache.peek now key.text

def invalidate (d : Decisions α) (key : Key) : Decisions α × Bool :=
  let (cache, mapped) := d.cache.delete key.text
  ({ d with cache }, mapped)

end Decisions

end Arbiter
