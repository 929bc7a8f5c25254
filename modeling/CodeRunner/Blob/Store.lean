import Mathlib.Data.Finset.Card
import Mathlib.Data.Finset.Insert
import Mathlib.Logic.Function.Basic

/-! # The blob keys in Redis and the object store

The liveness keys of `internal/blobindex` together with the content-addressed object store,
and the commands that the API, the workers and the collector issue on them. Each command is
atomic; the touch script is one command.
-/

namespace CodeRunner.Blob

/-- A full `sha256:<64hex>` reference: one token for the key, the file ref and the object. -/
abbrev Hash := String

abbrev JobId := String

/-- The value of `blob:meta:<hash>` and the time it expires, `none` without an expiry. -/
structure Meta where
  size : ℕ
  createdAtMs : ℕ
  expireAt : Option ℕ
  deriving DecidableEq, Repr

/--
The shared store. `metaKey`, `lease`, `index`, `candidates` and `gcLock` are the Redis keys
`blob:meta:<h>`, `blob:lease:<h>`, `blobs:index`, `blobs:gc:candidates` and `blobs:gc:lock`
(the lock by its expiry time); `objects` gives the size of each stored object. `holders` is a
history variable: the jobs that added themselves to a lease set and did not remove themselves.
-/
structure Store where
  now : ℕ
  metaKey : Hash → Option Meta
  lease : Hash → Finset JobId
  index : List Hash
  candidates : Hash → Option ℕ
  gcLock : Option ℕ
  objects : Hash → Option ℕ
  holders : Hash → Finset JobId

def Store.empty (now : ℕ) : Store where
  now := now
  metaKey _ := none
  lease _ := ∅
  index := []
  candidates _ := none
  gcLock := none
  objects _ := none
  holders _ := ∅

/-- The keys whose values `HSETNX` and `PEXPIRE` of the touch script leave behind. -/
def touchedMeta (now : ℕ) (old : Option Meta) (size createdAtMs reqTtl : ℕ) : Meta :=
  let m := old.getD ⟨size, createdAtMs, none⟩
  match m.expireAt with
  | none => { m with expireAt := some (now + reqTtl) }
  | some e => if e - now < reqTtl then { m with expireAt := some (now + reqTtl) } else m

/-- `touchScript` of the worker and `TOUCH_SCRIPT` of the API. -/
def Store.touchScript (s : Store) (h : Hash) (size createdAtMs reqTtl : ℕ) : Store :=
  { s with
    index := s.index.insert h
    metaKey := Function.update s.metaKey h
      (some (touchedMeta s.now (s.metaKey h) size createdAtMs reqTtl)) }

inductive Cmd where
  | time
  | touch (h : Hash) (size createdAtMs reqTtl : ℕ)
  | existsMeta (h : Hash)
  | saddLease (h : Hash) (job : JobId)
  | sremLease (h : Hash) (job : JobId)
  | scardLease (h : Hash)
  | setnxLock (ttl : ℕ)
  | delLock
  | smembersIndex
  | sremIndex (h : Hash)
  | zscore (h : Hash)
  | zadd (h : Hash) (score : ℕ)
  | zrem (h : Hash)
  | delLease (h : Hash)
  | delMeta (h : Hash)
  | putObject (h : Hash) (size : ℕ)
  | getObject (h : Hash)
  | statObject (h : Hash)
  | removeObject (h : Hash)
  deriving DecidableEq, Repr

def Cmd.ofCollector : Cmd → Bool
  | .scardLease _ | .setnxLock _ | .delLock | .smembersIndex | .sremIndex _ | .zscore _
  | .zadd _ _ | .zrem _ | .delLease _ | .delMeta _ | .statObject _ | .removeObject _ => true
  | _ => false

inductive Reply where
  | err
  | ok
  | bool (b : Bool)
  | int (n : ℕ)
  | opt (n : Option ℕ)
  | members (hs : List Hash)
  deriving DecidableEq, Repr

def Store.exec (s : Store) : Cmd → Store × Reply
  | .time => (s, .int s.now)
  | .touch h size createdAtMs reqTtl => (s.touchScript h size createdAtMs reqTtl, .ok)
  | .existsMeta h => (s, .bool (s.metaKey h).isSome)
  | .saddLease h job =>
      ({ s with
          lease := Function.update s.lease h (insert job (s.lease h))
          holders := Function.update s.holders h (insert job (s.holders h)) }, .ok)
  | .sremLease h job =>
      ({ s with
          lease := Function.update s.lease h ((s.lease h).erase job)
          holders := Function.update s.holders h ((s.holders h).erase job) }, .ok)
  | .scardLease h => (s, .int (s.lease h).card)
  | .setnxLock ttl =>
      if s.gcLock.isSome then (s, .bool false)
      else ({ s with gcLock := some (s.now + ttl) }, .bool true)
  | .delLock => ({ s with gcLock := none }, .ok)
  | .smembersIndex => (s, .members s.index)
  | .sremIndex h => ({ s with index := s.index.erase h }, .ok)
  | .zscore h => (s, .opt (s.candidates h))
  | .zadd h score => ({ s with candidates := Function.update s.candidates h (some score) }, .ok)
  | .zrem h => ({ s with candidates := Function.update s.candidates h none }, .ok)
  | .delLease h => ({ s with lease := Function.update s.lease h ∅ }, .ok)
  | .delMeta h => ({ s with metaKey := Function.update s.metaKey h none }, .ok)
  | .putObject h size => ({ s with objects := Function.update s.objects h (some size) }, .ok)
  | .getObject h => (s, .opt (s.objects h))
  | .statObject h => (s, .opt (s.objects h))
  | .removeObject h => ({ s with objects := Function.update s.objects h none }, .ok)

/-- Time passes, or the unordered `blobs:index` set will be listed in another order. -/
inductive Env where
  | tick (ms : ℕ)
  | shuffle (hs : List Hash)
  deriving DecidableEq, Repr

/-- Redis drops a key once its expiry time is reached. -/
def Meta.alive (now : ℕ) (m : Meta) : Bool := m.expireAt.all fun e => decide (now < e)

def Store.env (s : Store) : Env → Option Store
  | .tick ms => some
      { s with
        now := s.now + ms
        metaKey := fun h => (s.metaKey h).filter (Meta.alive (s.now + ms))
        gcLock := s.gcLock.filter fun e => decide (s.now + ms < e) }
  | .shuffle hs => if hs.isPerm s.index then some { s with index := hs } else none

variable {s s' : Store} {c : Cmd} {h h' : Hash}

theorem touchScript_metaKey (size createdAtMs reqTtl : ℕ) :
    (s.touchScript h size createdAtMs reqTtl).metaKey h' =
      if h' = h then some (touchedMeta s.now (s.metaKey h) size createdAtMs reqTtl)
      else s.metaKey h' := by
  simp only [Store.touchScript, Function.update_apply]

theorem exec_metaKey_isSome (hm : ((s.exec c).1.metaKey h).isSome) :
    (s.metaKey h).isSome ∨ ∃ size createdAtMs reqTtl, c = .touch h size createdAtMs reqTtl := by
  cases c with
  | touch h₀ size createdAtMs reqTtl =>
    rw [Store.exec, touchScript_metaKey] at hm
    split at hm
    · next heq => subst heq; exact .inr ⟨_, _, _, rfl⟩
    · exact .inl hm
  | delMeta h₀ =>
    simp only [Store.exec, Function.update_apply] at hm
    split at hm
    · simp at hm
    · exact .inl hm
  | setnxLock ttl =>
    simp only [Store.exec] at hm
    split at hm <;> exact .inl hm
  | _ => exact .inl hm

theorem exec_objects_isSome (ho : (s.objects h).isSome) :
    ((s.exec c).1.objects h).isSome ∨ c = .removeObject h := by
  cases c with
  | putObject h₀ size =>
    left
    simp only [Store.exec, Function.update_apply]
    split
    · rfl
    · exact ho
  | removeObject h₀ =>
    simp only [Store.exec, Function.update_apply]
    split
    · next heq => exact .inr (heq ▸ rfl)
    · exact .inl ho
  | setnxLock ttl =>
    simp only [Store.exec]
    split <;> exact .inl ho
  | _ => exact .inl ho

theorem exec_metaKey_of_remove : (s.exec (.removeObject h)).1.metaKey = s.metaKey := rfl

theorem exec_objects_of_touch (size createdAtMs reqTtl : ℕ) :
    (s.exec (.touch h size createdAtMs reqTtl)).1.objects = s.objects := rfl

theorem env_metaKey_isSome {e : Env} (he : s.env e = some s') (hm : (s'.metaKey h).isSome) :
    (s.metaKey h).isSome := by
  cases e with
  | tick ms =>
    obtain rfl := Option.some.inj he
    exact Option.isSome_of_isSome_filter _ _ hm
  | shuffle hs =>
    simp only [Store.env, Option.ite_none_right_eq_some, Option.some.injEq] at he
    obtain ⟨-, rfl⟩ := he
    exact hm

theorem env_frame {e : Env} (he : s.env e = some s') :
    s'.objects = s.objects ∧ s'.lease = s.lease ∧ s'.holders = s.holders ∧
      s'.candidates = s.candidates := by
  cases e with
  | tick ms =>
    obtain rfl := Option.some.inj he
    exact ⟨rfl, rfl, rfl, rfl⟩
  | shuffle hs =>
    simp only [Store.env, Option.ite_none_right_eq_some, Option.some.injEq] at he
    obtain ⟨-, rfl⟩ := he
    exact ⟨rfl, rfl, rfl, rfl⟩

end CodeRunner.Blob
