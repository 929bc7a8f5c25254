import CodeRunner.Keys
import CodeRunner.Lib.Ephemeral
import CodeRunner.Lib.Transition
import Mathlib.Tactic.Common

/-! # The rate limit on stdin frames

`POST /v1/jobs/:id/stdin` counts the frames of a job in each window of the clock, on a key that
expires. The two commands of a request reach the store one after the other, between those of any
other request on any replica; a replica has its own clock, and the store another.
-/

namespace CodeRunner.Api

open Transition Ephemeral Keys

/-- `STDIN_RATE_LIMIT_FRAMES`. -/
def stdinRateLimitFrames : ℕ := 30

/-- `STDIN_RATE_WINDOW_SECS`. -/
def stdinRateWindowSecs : ℕ := 1

/-- Before the `INCR` of a request, before its `EXPIRE`, with the replies to both, and answered
with a 429, passed on, or with the error of the pipeline. -/
inductive FramePc where
  | sent
  | counted
  | replied
  | limited
  | passed
  | failed
  deriving DecidableEq, Repr

/-- A request with the reply to its `INCR`, none if that is an error. `clock` is the reading of
the replica's clock; `arrived` records the time of the store then. -/
structure FrameRequest where
  jobId : String
  clock : ℕ
  arrived : ℕ
  count : Option ℕ
  pc : FramePc
  deriving DecidableEq, Repr

namespace FrameRequest

def window (r : FrameRequest) : ℕ := r.clock / (stdinRateWindowSecs * 1000)

def key (r : FrameRequest) : String := rateLimitKey r.jobId r.window

/-- `count > STDIN_RATE_LIMIT_FRAMES`, which an error is not. -/
def exceeds (r : FrameRequest) : Bool := r.count.any fun n => decide (stdinRateLimitFrames < n)

end FrameRequest

/-- The store and the requests, on all replicas. `hits` records the requests that a window of a
job has counted, in the order of their `INCR`s. -/
structure FrameRate where
  now : ℕ
  store : Store String ℕ
  requests : List FrameRequest
  hits : String × ℕ → List ℕ

inductive FrameAct where
  | tick (d : ℕ)
  | arrive (jobId : String) (clock : ℕ)
  | incr (i : ℕ) (ok : Bool)
  | expire (i : ℕ) (ok : Bool)
  | answer (i : ℕ)
  | throw (i : ℕ)
  deriving DecidableEq, Repr

namespace FrameRate

def start (now : ℕ) : FrameRate := ⟨now, Store.empty, [], fun _ => []⟩

def count (s : FrameRate) (i : ℕ) (r : FrameRequest) : FrameRate :=
  { s with
    store := s.store.incr s.now r.key
    requests := s.requests.set i { r with count := some (s.store.next s.now r.key), pc := .counted }
    hits := Function.update s.hits (r.jobId, r.window) (s.hits (r.jobId, r.window) ++ [i]) }

def setPc (s : FrameRate) (i : ℕ) (r : FrameRequest) (pc : FramePc) : FrameRate :=
  { s with requests := s.requests.set i { r with pc := pc } }

def step (s : FrameRate) : FrameAct → Option FrameRate
  | .tick d => some { s with now := s.now + d }
  | .arrive jobId clock =>
    some { s with requests := s.requests ++ [⟨jobId, clock, s.now, none, .sent⟩] }
  | .incr i ok =>
    match s.requests[i]? with
    | some r =>
      if r.pc = .sent then some (if ok then s.count i r else s.setPc i r .counted) else none
    | none => none
  | .expire i ok =>
    match s.requests[i]? with
    | some r =>
      if r.pc = .counted then
        let store := s.store.expire s.now ((stdinRateWindowSecs + 1) * 1000) r.key
        some { s.setPc i r .replied with store := if ok then store else s.store }
      else none
    | none => none
  | .answer i =>
    match s.requests[i]? with
    | some r =>
      if r.pc = .replied then some (s.setPc i r (if r.exceeds then .limited else .passed)) else none
    | none => none
  | .throw i =>
    match s.requests[i]? with
    | some r =>
      if r.pc = .sent ∨ r.pc = .counted ∨ r.pc = .replied then some (s.setPc i r .failed) else none
    | none => none

def passed (s : FrameRate) (i : ℕ) : Bool :=
  (s.requests[i]?).any fun r => decide (r.pc = .passed)

/-- The replicas' clocks are off by at most `skew`, and an `INCR` reaches the store at most `delay`
after the clock was read. -/
def Punctual (skew delay : ℕ) (s : FrameRate) : FrameAct → Prop
  | .arrive _ clock => clock ≤ s.now + skew ∧ s.now ≤ clock + skew
  | .incr i true => ∀ r ∈ s.requests[i]?, s.now ≤ r.arrived + delay
  | _ => True

instance (skew delay : ℕ) (s : FrameRate) : ∀ a, Decidable (s.Punctual skew delay a)
  | .arrive _ _ => inferInstanceAs (Decidable (_ ∧ _))
  | .incr _ true => inferInstanceAs (Decidable (∀ _ ∈ _, _))
  | .tick _ | .incr _ false | .expire _ _ | .answer _ | .throw _ => isTrue trivial

def graceEnd (skew window : ℕ) : ℕ := window * 1000 + 2000 - skew

/-- The counter of a window, if it has a hit, is the number of its hits, and a request's count its
position among them. -/
structure Inv (skew : ℕ) (s : FrameRate) : Prop where
  unused : ∀ j w, s.hits (j, w) = [] → s.store (rateLimitKey j w) = none
  counter : ∀ j w, s.hits (j, w) ≠ [] →
    s.store.Lasts (rateLimitKey j w) (s.hits (j, w)).length (graceEnd skew w)
  timely : ∀ (i : ℕ) (r : FrameRequest), s.requests[i]? = some r →
    r.clock ≤ r.arrived + skew ∧ r.arrived ≤ r.clock + skew ∧ r.arrived ≤ s.now
  ranked : ∀ (i : ℕ) (r : FrameRequest) (n : ℕ), s.requests[i]? = some r → r.count = some (n + 1) →
    (s.hits (r.jobId, r.window))[n]? = some i
  counted : ∀ j w n i, (s.hits (j, w))[n]? = some i →
    ∃ r, s.requests[i]? = some r ∧ r.jobId = j ∧ r.window = w ∧ r.count = some (n + 1)
  answered : ∀ (i : ℕ) (r : FrameRequest), s.requests[i]? = some r →
    (r.pc = .sent → r.count = none) ∧ (r.pc = .limited → r.exceeds = true) ∧
      (r.pc = .passed → r.exceeds = false)

variable {skew delay now : ℕ} {s s' t : FrameRate} {i k : ℕ} {r q : FrameRequest} {pc : FramePc}
  {a : FrameAct} {as : List FrameAct}

theorem getElem?_set_request {l : List FrameRequest} {r' : FrameRequest} (hi : l[i]? = some r) :
    (l.set i r')[k]? = some q ↔ k = i ∧ q = r' ∨ k ≠ i ∧ l[k]? = some q := by
  obtain ⟨hlt, -⟩ := List.getElem?_eq_some_iff.mp hi
  by_cases hk : k = i
  · subst hk
    simp [List.getElem?_set_self hlt, eq_comm]
  · simp [List.getElem?_set_ne (Ne.symm hk), hk]

theorem start_inv : (start now).Inv skew := by
  constructor
  · exact fun _ _ _ => rfl
  · exact fun _ _ h => absurd rfl h
  · exact fun _ _ h => nomatch h
  · exact fun _ _ _ h => nomatch h
  · exact fun _ _ _ _ h => nomatch h
  · exact fun _ _ h => nomatch h

theorem Inv.tick (hI : s.Inv skew) (d : ℕ) : Inv skew { s with now := s.now + d } where
  unused := hI.unused
  counter := hI.counter
  timely i r hi := by
    obtain ⟨h₁, h₂, h₃⟩ := hI.timely i r hi
    exact ⟨h₁, h₂, Nat.le_add_right_of_le h₃⟩
  ranked := hI.ranked
  counted := hI.counted
  answered := hI.answered

theorem Inv.arrive (hI : s.Inv skew) {jobId : String} {clock : ℕ} (h₁ : clock ≤ s.now + skew)
    (h₂ : s.now ≤ clock + skew) :
    Inv skew { s with requests := s.requests ++ [⟨jobId, clock, s.now, none, .sent⟩] } := by
  have hsplit : ∀ (k : ℕ) (q : FrameRequest),
      (s.requests ++ [⟨jobId, clock, s.now, none, .sent⟩])[k]? = some q →
        s.requests[k]? = some q ∨ q = ⟨jobId, clock, s.now, none, .sent⟩ := by
    intro k q hk
    rw [List.getElem?_append] at hk
    split at hk
    · exact .inl hk
    · exact .inr (List.mem_singleton.mp (List.mem_of_getElem? hk))
  constructor
  · exact hI.unused
  · exact hI.counter
  · intro k q hk
    rcases hsplit k q hk with hk | rfl
    · exact hI.timely k q hk
    · exact ⟨h₁, h₂, Nat.le_refl _⟩
  · intro k q n hk hn
    rcases hsplit k q hk with hk | rfl
    · exact hI.ranked k q n hk hn
    · cases hn
  · intro j w n k hk
    obtain ⟨q, hq, hrest⟩ := hI.counted j w n k hk
    obtain ⟨hlt, -⟩ := List.getElem?_eq_some_iff.mp hq
    exact ⟨q, by rw [List.getElem?_append_left hlt, hq], hrest⟩
  · intro k q hk
    rcases hsplit k q hk with hk | rfl
    · exact hI.answered k q hk
    · exact ⟨fun _ => rfl, nofun, nofun⟩

theorem Inv.setPc (hI : s.Inv skew) (hi : s.requests[i]? = some r) (hsent : pc ≠ .sent)
    (hlimited : pc = .limited → r.exceeds = true) (hpassed : pc = .passed → r.exceeds = false) :
    (s.setPc i r pc).Inv skew where
  unused := hI.unused
  counter := hI.counter
  timely k q hk := by
    rcases (getElem?_set_request hi).mp hk with ⟨rfl, rfl⟩ | ⟨-, hk⟩
    · exact hI.timely k r hi
    · exact hI.timely k q hk
  ranked k q n hk hn := by
    rcases (getElem?_set_request hi).mp hk with ⟨rfl, rfl⟩ | ⟨-, hk⟩
    · exact hI.ranked k r n hi hn
    · exact hI.ranked k q n hk hn
  counted j w n k hk := by
    obtain ⟨q, hq, hj, hw, hn⟩ := hI.counted j w n k hk
    by_cases hki : k = i
    · subst hki
      obtain rfl : r = q := Option.some.inj (hi.symm.trans hq)
      exact ⟨{ r with pc := pc }, (getElem?_set_request hi).mpr (.inl ⟨rfl, rfl⟩), hj, hw, hn⟩
    · exact ⟨q, (getElem?_set_request hi).mpr (.inr ⟨hki, hq⟩), hj, hw, hn⟩
  answered k q hk := by
    rcases (getElem?_set_request hi).mp hk with ⟨rfl, rfl⟩ | ⟨-, hk⟩
    · exact ⟨fun h => absurd h hsent, hlimited, hpassed⟩
    · exact hI.answered k q hk

/-- A window begins before the time of its requests, so every `EXPIRE` reaches past its end. -/
theorem Inv.expire (hI : s.Inv skew) (hi : s.requests[i]? = some r) :
    Inv skew { s with store := s.store.expire s.now 2000 r.key } where
  unused j w hnil := by
    by_cases hkey : rateLimitKey j w = r.key
    · have hnone := hI.unused j w hnil
      rw [hkey] at hnone ⊢
      exact (congrFun (Store.expire_none hnone) r.key).trans hnone
    · exact (Store.expire_of_ne hkey).trans (hI.unused j w hnil)
  counter j w hne := by
    by_cases hkey : rateLimitKey j w = r.key
    · obtain ⟨rfl, rfl⟩ := Slot.rateLimitKey_inj hkey
      obtain ⟨hskew, -, harrived⟩ := hI.timely i r hi
      refine (hI.counter _ _ hne).expire ?_
      have hwindow : r.window * 1000 ≤ r.clock := Nat.div_mul_le_self r.clock 1000
      rw [graceEnd]
      omega
    · exact (hI.counter j w hne).of_eq (Store.expire_of_ne hkey)
  timely := hI.timely
  ranked := hI.ranked
  counted := hI.counted
  answered := hI.answered

theorem Inv.now_lt_graceEnd (hI : s.Inv skew) (hgrace : 2 * skew + delay ≤ 1000)
    (hi : s.requests[i]? = some r) (hdelay : s.now ≤ r.arrived + delay) :
    s.now < graceEnd skew r.window := by
  obtain ⟨-, hskew, -⟩ := hI.timely i r hi
  have hwindow : r.clock < 1000 * (r.window + 1) := Nat.lt_mul_div_succ r.clock (by decide)
  rw [graceEnd]
  omega

theorem Inv.next_eq (hI : s.Inv skew) (hnow : s.now < graceEnd skew r.window) :
    s.store.next s.now r.key = (s.hits (r.jobId, r.window)).length + 1 := by
  by_cases hnil : s.hits (r.jobId, r.window) = []
  · rw [hnil]
    exact Store.next_none (hI.unused _ _ hnil)
  · exact (hI.counter _ _ hnil).next hnow

theorem Inv.lasts_incr (hI : s.Inv skew) (hnow : s.now < graceEnd skew r.window) :
    (s.store.incr s.now r.key).Lasts r.key ((s.hits (r.jobId, r.window)).length + 1)
      (graceEnd skew r.window) := by
  by_cases hnil : s.hits (r.jobId, r.window) = []
  · rw [hnil]
    exact Store.incr_none (hI.unused _ _ hnil)
  · exact (hI.counter _ _ hnil).incr hnow

theorem hits_count (j : String) (w : ℕ) :
    ((j, w) = (r.jobId, r.window) ∧ (s.count i r).hits (j, w) = s.hits (j, w) ++ [i]) ∨
      ((j, w) ≠ (r.jobId, r.window) ∧ (s.count i r).hits (j, w) = s.hits (j, w)) := by
  by_cases hjw : (j, w) = (r.jobId, r.window)
  · refine .inl ⟨hjw, ?_⟩
    rw [hjw]
    exact Function.update_self ..
  · exact .inr ⟨hjw, Function.update_of_ne hjw ..⟩

theorem key_ne {j : String} {w : ℕ} (h : (j, w) ≠ (r.jobId, r.window)) :
    rateLimitKey j w ≠ r.key := by
  rintro hkey
  obtain ⟨rfl, rfl⟩ := Slot.rateLimitKey_inj hkey
  exact h rfl

theorem Inv.count (hI : s.Inv skew) (hi : s.requests[i]? = some r) (hsent : r.pc = .sent)
    (hnow : s.now < graceEnd skew r.window) : (s.count i r).Inv skew where
  unused j w hnil := by
    rcases hits_count (s := s) (i := i) (r := r) j w with ⟨-, hhits⟩ | ⟨hjw, hhits⟩
    · rw [hhits] at hnil
      exact absurd hnil (List.append_ne_nil_of_right_ne_nil _ (List.cons_ne_nil i []))
    · rw [hhits] at hnil
      exact (Store.incr_of_ne (key_ne hjw)).trans (hI.unused j w hnil)
  counter j w hne := by
    rcases hits_count (s := s) (i := i) (r := r) j w with ⟨hjw, hhits⟩ | ⟨hjw, hhits⟩
    · obtain ⟨rfl, rfl⟩ := Prod.mk.inj hjw
      rw [hhits, List.length_append]
      exact hI.lasts_incr hnow
    · rw [hhits] at hne ⊢
      exact (hI.counter j w hne).of_eq (Store.incr_of_ne (key_ne hjw))
  timely k q hk := by
    rcases (getElem?_set_request hi).mp hk with ⟨rfl, rfl⟩ | ⟨-, hk⟩
    · exact hI.timely k r hi
    · exact hI.timely k q hk
  ranked k q n hk hn := by
    rcases (getElem?_set_request hi).mp hk with ⟨rfl, rfl⟩ | ⟨-, hk⟩
    · -- The reply is one more than the hits so far, so the new hit stands right behind them.
      have hnext := hI.next_eq hnow
      rw [Option.some.inj hn] at hnext
      obtain rfl : n = (s.hits (r.jobId, r.window)).length := Nat.succ.inj hnext
      have hhits : (s.count k r).hits (r.jobId, r.window) =
          s.hits (r.jobId, r.window) ++ [k] := Function.update_self ..
      exact hhits ▸ List.getElem?_concat_length
    · have hold := hI.ranked k q n hk hn
      rcases hits_count (s := s) (i := i) (r := r) q.jobId q.window with ⟨-, hhits⟩ | ⟨-, hhits⟩
      · obtain ⟨hlt, -⟩ := List.getElem?_eq_some_iff.mp hold
        rw [hhits, List.getElem?_append_left hlt, hold]
      · rw [hhits, hold]
  counted j w n k hk := by
    have hother : (s.hits (j, w))[n]? = some k → ∃ q, (s.count i r).requests[k]? = some q ∧
        q.jobId = j ∧ q.window = w ∧ q.count = some (n + 1) := by
      intro hold
      obtain ⟨q, hq, hj, hw, hn⟩ := hI.counted j w n k hold
      refine ⟨q, (getElem?_set_request hi).mpr (.inr ⟨?_, hq⟩), hj, hw, hn⟩
      rintro rfl
      obtain rfl : r = q := Option.some.inj (hi.symm.trans hq)
      rw [(hI.answered k r hi).1 hsent] at hn
      cases hn
    rcases hits_count (s := s) (i := i) (r := r) j w with ⟨hjw, hhits⟩ | ⟨-, hhits⟩
    · rw [hhits, List.getElem?_append] at hk
      split at hk
      · exact hother hk
      · next hge =>
        obtain ⟨rfl, rfl⟩ := Prod.mk.inj hjw
        obtain ⟨hlen, hlast⟩ := List.getElem?_eq_some_iff.mp hk
        obtain rfl : n = (s.hits (r.jobId, r.window)).length := by
          rw [List.length_singleton] at hlen
          omega
        obtain rfl : i = k := List.mem_singleton.mp (List.mem_of_getElem? hk) |>.symm
        exact ⟨_, (getElem?_set_request hi).mpr (.inl ⟨rfl, rfl⟩), rfl, rfl,
          congrArg some (hI.next_eq hnow)⟩
    · exact hother (hhits ▸ hk)
  answered k q hk := by
    rcases (getElem?_set_request hi).mp hk with ⟨rfl, rfl⟩ | ⟨-, hk⟩
    · exact ⟨nofun, nofun, nofun⟩
    · exact hI.answered k q hk

theorem step_inv (hgrace : 2 * skew + delay ≤ 1000) (hI : s.Inv skew)
    (ha : Punctual skew delay s a) (hs : step s a = some s') : s'.Inv skew := by
  cases a with
  | tick d =>
    obtain rfl := Option.some.inj hs
    exact hI.tick d
  | arrive jobId clock =>
    obtain rfl := Option.some.inj hs
    exact hI.arrive ha.1 ha.2
  | incr i ok =>
    simp only [step] at hs
    split at hs
    · next r hi =>
      obtain ⟨hsent, hs⟩ := Option.ite_none_right_eq_some.mp hs
      obtain rfl := Option.some.inj hs
      cases ok with
      | true => exact hI.count hi hsent (hI.now_lt_graceEnd hgrace hi (ha r hi))
      | false => exact hI.setPc hi nofun nofun nofun
    · cases hs
  | expire i ok =>
    simp only [step] at hs
    split at hs
    · next r hi =>
      obtain ⟨-, hs⟩ := Option.ite_none_right_eq_some.mp hs
      obtain rfl := Option.some.inj hs
      cases ok with
      | true => exact (hI.expire hi).setPc hi nofun nofun nofun
      | false => exact hI.setPc hi nofun nofun nofun
    · cases hs
  | answer i =>
    simp only [step] at hs
    split at hs
    · next r hi =>
      obtain ⟨-, hs⟩ := Option.ite_none_right_eq_some.mp hs
      obtain rfl := Option.some.inj hs
      cases hexceeds : r.exceeds with
      | true => exact hI.setPc hi nofun (fun _ => hexceeds) nofun
      | false => exact hI.setPc hi nofun nofun (fun _ => hexceeds)
    · cases hs
  | throw i =>
    simp only [step] at hs
    split at hs
    · next r hi =>
      obtain ⟨-, hs⟩ := Option.ite_none_right_eq_some.mp hs
      obtain rfl := Option.some.inj hs
      exact hI.setPc hi nofun nofun nofun
    · cases hs

/-- Of a list whose elements that meet `p` all stand in front of position `n`, at most `n` do. -/
theorem length_filter_le {l : List ℕ} {p : ℕ → Bool} {n : ℕ}
    (h : ∀ (m i : ℕ), l[m]? = some i → p i = true → m < n) : (l.filter p).length ≤ n := by
  have hdrop : (l.drop n).filter p = [] := by
    rw [List.filter_eq_nil_iff]
    intro i hi hp
    obtain ⟨m, hm⟩ := List.mem_iff_getElem?.mp hi
    rw [List.getElem?_drop] at hm
    have hlt := h (n + m) i hm hp
    omega
  calc (l.filter p).length
      = ((l.take n).filter p).length := by
        rw [← List.take_append_drop n l, List.filter_append, hdrop, List.append_nil,
          List.take_append_drop]
    _ ≤ (l.take n).length := List.length_filter_le p _
    _ ≤ n := List.length_take_le n l

/-- As long as the clocks of the replicas and the delay of the pipelines stay within the grace of a
second, a window of a job passes none but its first thirty hits and turns none of them away,
whatever the requests on the replicas do in between. A request whose `INCR` fails is no hit. -/
theorem frame_rate (hgrace : 2 * skew + delay ≤ 1000)
    (hr : run step (start now) as = some t)
    (hpunctual : EveryStep step (Punctual skew delay) (start now) as) :
    (∀ (i : ℕ) (r : FrameRequest), t.requests[i]? = some r → r.pc = .limited →
      ∃ n, stdinRateLimitFrames ≤ n ∧ (t.hits (r.jobId, r.window))[n]? = some i) ∧
    (∀ (i : ℕ) (r : FrameRequest), t.requests[i]? = some r → r.pc = .passed →
      ∀ n, (t.hits (r.jobId, r.window))[n]? = some i → n < stdinRateLimitFrames) ∧
    ∀ jobId window,
      ((t.hits (jobId, window)).filter t.passed).length ≤ stdinRateLimitFrames := by
  have hinv : Always step (fun s => s.Inv skew) (start now) as :=
    .of_guarded (fun _ _ _ hI ha hs => step_inv hgrace hI ha hs) start_inv hpunctual
  have hI : t.Inv skew := hinv.last hr
  have hpassed : ∀ (j : String) (w n i : ℕ), (t.hits (j, w))[n]? = some i → t.passed i = true →
      n < stdinRateLimitFrames := by
    intro j w n i hn hp
    obtain ⟨r, hi, -, -, hcount⟩ := hI.counted j w n i hn
    rw [passed, hi, Option.any_some, decide_eq_true_eq] at hp
    have hle := (hI.answered i r hi).2.2 hp
    rw [FrameRequest.exceeds, hcount, Option.any_some, decide_eq_false_iff_not] at hle
    omega
  refine ⟨fun i r hi hpc => ?_, fun i r hi hpc n hn => ?_,
    fun j w => length_filter_le (hpassed j w)⟩
  · have hexceeds := (hI.answered i r hi).2.1 hpc
    obtain ⟨n, hcount, hlt⟩ := Option.any_eq_true .. |>.mp hexceeds
    rw [decide_eq_true_eq] at hlt
    obtain ⟨m, rfl⟩ : ∃ m, n = m + 1 := ⟨n - 1, by omega⟩
    exact ⟨m, by omega, hI.ranked i r m hi hcount⟩
  · refine hpassed r.jobId r.window n i hn ?_
    rw [passed, hi, Option.any_some, decide_eq_true_eq, hpc]

/-- Two replicas whose clocks disagree count two frames of a window in the order opposite to their
arrival. -/
theorem frame_rate_twoReplicas :
    ∃ t, run step (start 1400)
        [.arrive "j" 1500, .tick 100, .arrive "j" 1450, .incr 1 true, .incr 0 true,
          .expire 0 true, .expire 1 true, .answer 0, .answer 1] = some t ∧
      t.hits ("j", 1) = [1, 0] ∧
      ((t.hits ("j", 1)).filter t.passed).length ≤ stdinRateLimitFrames := by
  have hgrace : 2 * 200 + 600 ≤ 1000 := by decide
  have hpunctual : EveryStep step (Punctual 200 600) (start 1400)
      [.arrive "j" 1500, .tick 100, .arrive "j" 1450, .incr 1 true, .incr 0 true,
        .expire 0 true, .expire 1 true, .answer 0, .answer 1] := by decide +kernel
  refine ⟨_, rfl, by decide +kernel, ?_⟩
  exact (frame_rate hgrace rfl hpunctual).2.2 "j" 1

end FrameRate

end CodeRunner.Api
