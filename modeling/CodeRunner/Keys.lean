import CodeRunner.Reaper.Safety
import Mathlib.Data.List.Infix

/-! # The key space of the store

The API, the workers and the reaper share one Redis. The identifiers in a key are strings that
nothing restricts, so two keys of different families, or of one family at different identifiers,
must not be written the same.
-/

namespace CodeRunner.Keys

open Reaper

def jobQueue : String := "jobs:queue"

def jobStatusKey (jobID : String) : String := "job:" ++ jobID ++ ":status"

def jobSpecKey (jobID : String) : String := "job:" ++ jobID ++ ":spec"

def jobOutputKey (jobID : String) : String := "job:" ++ jobID ++ ":output"

def startFlagKey (jobID : String) : String := "start:" ++ jobID

def workerHeartbeatKey (workerID : String) : String := "worker:" ++ workerID ++ ":heartbeat"

def capacityFree : String := "capacity:free"

def blobMetaKey (hash : String) : String := "blob:meta:" ++ hash

def blobLeaseKey (hash : String) : String := "blob:lease:" ++ hash

def blobIndex : String := "blobs:index"

def blobGCCandidates : String := "blobs:gc:candidates"

def blobGCLock : String := "blobs:gc:lock"

def rateLimitKey (jobId : String) (window : ℕ) : String :=
  "job:" ++ jobId ++ ":stdin_rate:" ++ window.repr

def pendingBytesKey (jobId : String) : String := "job:" ++ jobId ++ ":stdin_pending"

/-- What is kept under a key. -/
inductive Slot
  | jobQueue
  | jobStatus (jobID : String)
  | jobSpec (jobID : String)
  | jobOutput (jobID : String)
  | startFlag (jobID : String)
  | workerHeartbeat (workerID : String)
  | workerJobs (workerID : String)
  | capacityFree
  | blobMeta (hash : String)
  | blobLease (hash : String)
  | blobIndex
  | blobGCCandidates
  | blobGCLock
  | stdinRate (jobId : String) (window : ℕ)
  | stdinPending (jobId : String)
  deriving DecidableEq, Repr

namespace Slot

def key : Slot → String
  | .jobQueue => Keys.jobQueue
  | .jobStatus jobID => jobStatusKey jobID
  | .jobSpec jobID => jobSpecKey jobID
  | .jobOutput jobID => jobOutputKey jobID
  | .startFlag jobID => startFlagKey jobID
  | .workerHeartbeat workerID => workerHeartbeatKey workerID
  | .workerJobs workerID => workerJobsKey workerID
  | .capacityFree => Keys.capacityFree
  | .blobMeta hash => blobMetaKey hash
  | .blobLease hash => blobLeaseKey hash
  | .blobIndex => Keys.blobIndex
  | .blobGCCandidates => Keys.blobGCCandidates
  | .blobGCLock => Keys.blobGCLock
  | .stdinRate jobId window => rateLimitKey jobId window
  | .stdinPending jobId => pendingBytesKey jobId

/-- The constructor of the slot that a text is the key of, read off its first characters and its
last one. -/
def family : List Char → ℕ
  | 'j' :: 'o' :: 'b' :: ':' :: rest =>
    match rest.getLast? with
    | some 's' => Slot.ctorIdx (.jobStatus "")
    | some 'c' => Slot.ctorIdx (.jobSpec "")
    | some 't' => Slot.ctorIdx (.jobOutput "")
    | some 'g' => Slot.ctorIdx (.stdinPending "")
    | _ => Slot.ctorIdx (.stdinRate "" 0)
  | 'j' :: _ => Slot.ctorIdx .jobQueue
  | 's' :: _ => Slot.ctorIdx (.startFlag "")
  | 'w' :: rest =>
    match rest.getLast? with
    | some 't' => Slot.ctorIdx (.workerHeartbeat "")
    | _ => Slot.ctorIdx (.workerJobs "")
  | 'c' :: _ => Slot.ctorIdx .capacityFree
  | 'b' :: 'l' :: 'o' :: 'b' :: ':' :: 'm' :: _ => Slot.ctorIdx (.blobMeta "")
  | 'b' :: 'l' :: 'o' :: 'b' :: ':' :: _ => Slot.ctorIdx (.blobLease "")
  | 'b' :: 'l' :: 'o' :: 'b' :: 's' :: ':' :: 'i' :: _ => Slot.ctorIdx .blobIndex
  | 'b' :: 'l' :: 'o' :: 'b' :: 's' :: ':' :: 'g' :: 'c' :: ':' :: 'c' :: _ =>
    Slot.ctorIdx .blobGCCandidates
  | _ => Slot.ctorIdx .blobGCLock

variable {s s' : Slot}

theorem isDigit_of_mem_repr {n : ℕ} {c : Char} (h : c ∈ n.repr.toList) : c.isDigit = true := by
  rw [Nat.repr, String.toList_ofList] at h
  exact Nat.isDigit_of_mem_toDigits (by decide) (by decide) h

theorem getLast?_toDigits (n : ℕ) :
    ∃ c, (Nat.toDigits 10 n).getLast? = some c ∧ c.isDigit = true := by
  have hne : Nat.toDigits 10 n ≠ [] := Nat.toDigits_ne_nil
  exact ⟨_, List.getLast?_eq_some_getLast hne,
    Nat.isDigit_of_mem_toDigits (by decide) (by decide) (List.getLast_mem hne)⟩

theorem family_key (s : Slot) : family s.key.toList = s.ctorIdx := by
  cases s with
  | stdinRate jobId window =>
    obtain ⟨c, hc, hdigit⟩ := getLast?_toDigits window
    simp only [key, rateLimitKey, family, String.toList_append, Nat.toList_repr,
      String.reduceToList, List.getLast?_append, List.cons_append, List.nil_append,
      List.getLast?_cons, hc]
    split
    all_goals first | rfl | simp_all
  | _ =>
    simp [key, family, Keys.jobQueue, jobStatusKey, jobSpecKey, jobOutputKey, startFlagKey,
      workerHeartbeatKey, workerJobsKey, workerJobsKeyPrefix, workerJobsKeySuffix,
      Keys.capacityFree, blobMetaKey, blobLeaseKey, Keys.blobIndex, Keys.blobGCCandidates,
      Keys.blobGCLock, pendingBytesKey, Slot.ctorIdx, List.getLast?_append, List.getLast?_cons]

/-- No identifier, however written, makes two windows of a job or two jobs share a counter: the
digits of the window begin at the last colon. -/
theorem rateLimitKey_inj {j j' : String} {w w' : ℕ} (h : rateLimitKey j w = rateLimitKey j' w') :
    j = j' ∧ w = w' := by
  have hread : ∀ (j : String) (w : ℕ),
      (rateLimitKey j w).toList.reverse.takeWhile Char.isDigit = w.repr.toList.reverse := by
    intro j w
    rw [rateLimitKey, String.toList_append, List.reverse_append, List.takeWhile_append_of_pos
      (fun c hc => isDigit_of_mem_repr (List.mem_reverse.mp hc))]
    simp
  have hw : w = w' := by
    have hrev := congrArg (fun k : String => k.toList.reverse.takeWhile Char.isDigit) h
    simp only [hread, List.reverse_inj, String.toList_inj] at hrev
    have hdigits : Nat.toDigits 10 w = Nat.toDigits 10 w' := by
      rw [← Nat.toList_repr, ← Nat.toList_repr, hrev]
    rw [← Nat.ofDigitChars_ten_toDigits (n := w), hdigits, Nat.ofDigitChars_ten_toDigits]
  subst hw
  exact ⟨by simpa [rateLimitKey] using h, rfl⟩

theorem key_injective : Function.Injective key := by
  intro s s' h
  have hidx : s.ctorIdx = s'.ctorIdx := by
    rw [← family_key, ← family_key, h]
  cases s <;> cases s' <;> first
    | (cases hidx; done)
    | rfl
    | simpa [key, jobStatusKey, jobSpecKey, jobOutputKey, startFlagKey, workerHeartbeatKey,
        workerJobsKey, blobMetaKey, blobLeaseKey, pendingBytesKey] using h
    | (obtain ⟨rfl, rfl⟩ := rateLimitKey_inj h; rfl)

end Slot

/-- The pattern of `ScanWorkerJobsKeys`. -/
def workerJobsPattern : String := "worker:*:jobs"

/-- `MATCH` of a `SCAN`, for patterns whose only wildcard is the star. -/
def scanMatch : List Char → List Char → Bool
  | [], k => k.isEmpty
  | d :: p, k =>
    if d = '*' then k.tails.any (scanMatch p)
    else
      match k with
      | [] => false
      | c :: k => d == c && scanMatch p k

variable {p q k : List Char}

theorem scanMatch_literal (hp : '*' ∉ p) : scanMatch (p ++ q) k = true ↔
    ∃ k', k = p ++ k' ∧ scanMatch q k' = true := by
  induction p generalizing k with
  | nil => simp
  | cons d p ih =>
    obtain ⟨hd, hp⟩ := not_or.mp (mt List.mem_cons.mpr hp)
    cases k with
    | nil => simp [scanMatch, Ne.symm hd]
    | cons c k =>
      rw [List.cons_append, scanMatch, if_neg (Ne.symm hd), Bool.and_eq_true, beq_iff_eq, ih hp]
      constructor
      · rintro ⟨rfl, k', rfl, h⟩
        exact ⟨k', rfl, h⟩
      · rintro ⟨k', hk, h⟩
        obtain ⟨rfl, rfl⟩ := List.cons.inj hk
        exact ⟨rfl, k', rfl, h⟩

theorem scanMatch_star : scanMatch ('*' :: q) k = true ↔
    ∃ m k', k = m ++ k' ∧ scanMatch q k' = true := by
  have htails : scanMatch ('*' :: q) k = k.tails.any (scanMatch q) := by
    cases k <;> rw [scanMatch, if_pos rfl]
  rw [htails, List.any_eq_true]
  constructor
  · rintro ⟨k', hk, h⟩
    obtain ⟨m, rfl⟩ := (List.mem_tails _ _).mp hk
    exact ⟨m, k', rfl, h⟩
  · rintro ⟨m, k', rfl, h⟩
    exact ⟨k', (List.mem_tails _ _).mpr (List.suffix_append m k'), h⟩

theorem scanMatch_workerJobsPattern {k : String} :
    scanMatch workerJobsPattern.toList k.toList = true ↔ ∃ w, k = workerJobsKey w := by
  have hpattern : workerJobsPattern.toList =
      workerJobsKeyPrefix.toList ++ '*' :: (workerJobsKeySuffix.toList ++ []) := by decide
  rw [hpattern, scanMatch_literal (by decide)]
  simp only [scanMatch_star, scanMatch_literal (p := workerJobsKeySuffix.toList) (by decide)]
  constructor
  · rintro ⟨_, hk, m, _, rfl, k', rfl, hk'⟩
    refine ⟨String.ofList m, ?_⟩
    rw [← String.toList_inj, hk, workerJobsKey]
    simpa [scanMatch] using hk'
  · rintro ⟨w, rfl⟩
    refine ⟨_, ?_, w.toList, _, rfl, [], rfl, rfl⟩
    simp [workerJobsKey]

/-- The keys of two slots are different, whatever the identifiers in them, and among all the keys
the scan for owned-jobs sets returns those sets, each with its worker to be read off. -/
theorem key_space :
    Function.Injective Slot.key ∧ ∀ s : Slot,
      scanMatch workerJobsPattern.toList s.key.toList = true ↔
        s = .workerJobs (extractWorkerID s.key) := by
  refine ⟨Slot.key_injective, fun s => ?_⟩
  rw [scanMatch_workerJobsPattern]
  constructor
  · rintro ⟨w, hw⟩
    rw [hw, extractWorkerID_workerJobsKey]
    exact Slot.key_injective hw
  · intro hs
    exact ⟨extractWorkerID s.key, congrArg Slot.key hs⟩

end CodeRunner.Keys
