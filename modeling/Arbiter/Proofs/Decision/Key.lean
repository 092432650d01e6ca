import Arbiter.Decision
import Arbiter.Proofs.Cache.Provenance
import Arbiter.Proofs.Text

/-!
Which requests share a decision. A key ends with a digest, whose text has one length, so that what
stands before it is determined too. That part joins two names with a colon and escapes none, so it
tells the names apart only where it is known how many colons the first one has.
-/

namespace Arbiter

universe u v

variable {α : Type u} {ε : Type v}

theorem Sha256.length_digest (message : List UInt8) : (digest message).length = 32 := by
  simp [digest, State.words, bytesOf]

theorem Hex.encode_injective : Function.Injective encode := by
  intro bytes bytes' same
  have read := congrArg decode? same
  rwa [decode?_encode, decode?_encode, Option.some.injEq] at read

namespace Decision

def colons (name : String) : Nat := name.toList.count ':'

namespace Request

variable {r q : Request}

def scope (r : Request) : String := r.module ++ ":" ++ r.entrypoint

theorem toList_text (r : Request) : r.key.text.toList =
    r.scope.toList ++ ':' :: (Hex.encode (Sha256.digest r.input)).toList := by
  rw [key, scope, String.toList_append, String.toList_append, List.append_assoc]
  rfl

theorem toList_scope (r : Request) :
    r.scope.toList = r.module.toList ++ ':' :: r.entrypoint.toList := by
  rw [scope, String.toList_append, String.toList_append, List.append_assoc]
  rfl

theorem key_eq_iff :
    r.key = q.key ↔ r.scope = q.scope ∧ Sha256.digest r.input = Sha256.digest q.input := by
  rw [← Hex.encode_injective.eq_iff, ← String.toList_inj, ← String.toList_inj]
  have split : r.key = q.key ↔ r.key.text.toList = q.key.text.toList := by
    rw [String.toList_inj]
    exact ⟨congrArg Key.text, congrArg Key.mk⟩
  rw [split, toList_text, toList_text]
  constructor
  · intro same
    have length : ∀ p : Request, (Hex.encode (Sha256.digest p.input)).toList.length = 64 :=
      fun p => by rw [String.length_toList, Hex.length_encode, Sha256.length_digest]
    obtain ⟨scope, digest⟩ := List.append_inj' same (by simp only [List.length_cons, length])
    exact ⟨scope, List.tail_eq_of_cons_eq digest⟩
  · rintro ⟨scope, digest⟩
    rw [scope, digest]

/-- Of the requests that share a scope, those that tell colons apart alike are to one entrypoint of
one module. -/
theorem same_names_iff (h : r.scope = q.scope) :
    r.module = q.module ∧ r.entrypoint = q.entrypoint ↔ colons r.module = colons q.module := by
  constructor
  · rintro ⟨module, -⟩
    rw [module]
  · intro count
    rw [← String.toList_inj, toList_scope, toList_scope] at h
    rw [← String.toList_inj, ← String.toList_inj]
    exact append_cons_inj h count

end Request

end Decision

namespace Decisions

open Decision

variable {σ : Service α} {key : Key} {ttl : Duration} {evaluate : String → Except (LoadError ε) α}
  {value : α}

theorem reply_of_decide
    (served : (decide ⟨σ.cache, ttl⟩ σ.now key evaluate).2 = some ⟨.ok value, false⟩) :
    σ.reply (.enter key.text ttl : Action ε α) = .served ⟨.ok value, false⟩ := by
  rw [decide, Cache.get] at served
  rw [Service.reply, Service.act]
  dsimp only at served ⊢
  generalize σ.cache.enter σ.now key.text ttl = entered at served
  obtain ⟨c, admission⟩ := entered
  cases admission with
  | hit found =>
    cases served
    rfl
  | wait load => cases served
  | run claim => cases congrArg Cache.Served.called (Option.some.inj served)

/-- Equal keys have equal digests and scopes, but not always the same names. A decision served
without evaluation was loaded by a get of the same key; where that get was for another request, the
digests of the two inputs are equal, and the names are unless the modules differ in colons. -/
theorem decide_separates :
    (∀ r q : Request, r.key = q.key ↔
      r.scope = q.scope ∧ Sha256.digest r.input = Sha256.digest q.input) ∧
    (∀ r q : Request, r.key = q.key →
      (r.module = q.module ∧ r.entrypoint = q.entrypoint ↔ colons r.module = colons q.module)) ∧
    ∀ (n : Nat) (as : List (Action ε α)) (ttl : Duration) (r : Request)
      (evaluate : String → Except (LoadError ε) α) (value : α),
      let σ := (Service.ofCapacity n).run as
      (decide ⟨σ.cache, ttl⟩ σ.now r.key evaluate).2 = some ⟨.ok value, false⟩ →
      ∃ before call during newer,
        as = before ++ .enter call.key call.ttl :: during ++ .settle call.id (.ok value) :: newer ∧
        ((Service.ofCapacity n).run before).reply (.enter call.key call.ttl : Action ε α) =
          .runs call ∧ call.key = r.key.text ∧
        ∀ q : Request, call.key = q.key.text →
          Sha256.digest r.input = Sha256.digest q.input ∧
          (r.module = q.module ∧ r.entrypoint = q.entrypoint ↔
            colons r.module = colons q.module) := by
  refine ⟨fun r q => Request.key_eq_iff, fun r q same => ?_, ?_⟩
  · exact Request.same_names_iff (Request.key_eq_iff.1 same).1
  · intro n as ttl r evaluate value σ served
    have steady := ((Service.sound_ofCapacity (α := α) n).run as).steady
    obtain ⟨-, -, found, s, expiry, ok, mapped, content, fresh⟩ :=
      Service.stored_of_served steady (reply_of_decide served)
    cases ok
    obtain ⟨before, call, during, newer, is, key, runs, -⟩ :=
      (Service.loaded_of_stored mapped content).sourced fresh
    rw [← key] at is runs
    refine ⟨before, call, during, newer, is, runs, key, fun q same => ?_⟩
    obtain ⟨scope, digest⟩ := Request.key_eq_iff.1 (congrArg Key.mk (key.symm.trans same))
    exact ⟨digest, Request.same_names_iff scope⟩

def read : Request := ⟨"a", "b", []⟩

theorem read_decided :
    let as : List (Action String Nat) := [.enter read.key.text ⟨5⟩, .settle 0 (.ok 7)]
    let σ := (Service.ofCapacity 1).run as
    (decide ⟨σ.cache, ⟨5⟩⟩ σ.now read.key fun _ => (.ok 8 : Except (LoadError String) Nat)).2 =
      some ⟨.ok 7, false⟩ ∧
    ∃ before call during newer,
      as = before ++ .enter call.key call.ttl :: during ++ .settle call.id (.ok 7) :: newer ∧
      ((Service.ofCapacity 1).run before).reply (.enter call.key call.ttl : Action String Nat) =
        .runs call := by
  have text : read.key =
      ⟨"a:b:e3b0c44298fc1c149afbf4c8996fb92427ae41e4649b934ca495991b7852b855"⟩ := by
    decide +kernel
  intro as σ
  have served : (decide ⟨σ.cache, ⟨5⟩⟩ σ.now read.key
      fun _ => (.ok 8 : Except (LoadError String) Nat)).2 = some ⟨.ok 7, false⟩ := by
    subst σ as
    rw [text]
    rfl
  obtain ⟨before, call, during, newer, is, runs, -⟩ :=
    decide_separates.2.2 1 as ⟨5⟩ read _ 7 served
  exact ⟨served, before, call, during, newer, is, runs⟩

/-- A colon that moves from one name to the other leaves the key as it was, so that a request is
answered by the decision on another. -/
theorem colon_confuses :
    let r : Request := ⟨"a:b", "c", []⟩
    let q : Request := ⟨"a", "b:c", []⟩
    let evaluated := decide ⟨.ofCapacity 1, ⟨5⟩⟩ .origin r.key
      fun _ => (.ok 7 : Except (LoadError String) Nat)
    r.key = q.key ∧ r.module ≠ q.module ∧ r.entrypoint ≠ q.entrypoint ∧
    (decide evaluated.1 .origin q.key
      fun _ => (.ok 8 : Except (LoadError String) Nat)).2 = some ⟨.ok 7, false⟩ := by
  have text : (⟨"a:b", "c", []⟩ : Request).key =
      ⟨"a:b:c:e3b0c44298fc1c149afbf4c8996fb92427ae41e4649b934ca495991b7852b855"⟩ := by
    decide +kernel
  have text' : (⟨"a", "b:c", []⟩ : Request).key =
      ⟨"a:b:c:e3b0c44298fc1c149afbf4c8996fb92427ae41e4649b934ca495991b7852b855"⟩ := by
    decide +kernel
  intro r q evaluated
  subst evaluated r q
  refine ⟨text.trans text'.symm, by decide, by decide, ?_⟩
  rw [text, text']
  rfl

end Decisions

end Arbiter
