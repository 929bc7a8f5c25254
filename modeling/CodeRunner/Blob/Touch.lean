import CodeRunner.Blob.Store
import Mathlib.Data.List.Basic
import Mathlib.Order.Defs.LinearOrder

/-! # The touch script

The Lua script by which the worker and the API extend the life of a blob, command by command. It
only ever lengthens: the expiry of a meta key is the latest deadline that a touch has asked for
since the key was created.
-/

namespace CodeRunner.Blob

structure RedisHash where
  fields : String → Option String
  expireAt : Option ℕ

/-- The keys `blob:meta:<hash>` and the set `blobs:index`. -/
structure Keyspace where
  now : ℕ
  metaKey : Hash → Option RedisHash
  index : Finset Hash

namespace Keyspace

def empty (now : ℕ) : Keyspace := ⟨now, fun _ => none, ∅⟩

def sadd (k : Keyspace) (h : Hash) : Keyspace := { k with index := insert h k.index }

/-- A hash is created without an expiry, and a field that is there stays. -/
def hsetnx (k : Keyspace) (h : Hash) (field value : String) : Keyspace :=
  let m := (k.metaKey h).getD ⟨fun _ => none, none⟩
  let fields := Function.update m.fields field ((m.fields field).or (some value))
  { k with metaKey := Function.update k.metaKey h (some { m with fields := fields }) }

def pttl (k : Keyspace) (h : Hash) : ℤ :=
  match k.metaKey h with
  | none => -2
  | some m =>
    match m.expireAt with
    | none => -1
    | some e => ((e - k.now : ℕ) : ℤ)

/-- A time that is not positive deletes the key. -/
def pexpire (k : Keyspace) (h : Hash) (ms : ℤ) : Keyspace :=
  let m := (k.metaKey h).bind fun m =>
    if ms ≤ 0 then none else some { m with expireAt := some (k.now + ms.toNat) }
  { k with metaKey := Function.update k.metaKey h m }

end Keyspace

/-- `ARGV` of the script. -/
structure TouchArgs where
  hash : Hash
  size : String
  created : String
  reqTtl : ℤ

/-- `touchScript` of the worker, with what it returns. -/
def touchScript (a : TouchArgs) (k : Keyspace) : Keyspace × ℤ :=
  let k := k.sadd a.hash
  let k := k.hsetnx a.hash "size" a.size
  let k := k.hsetnx a.hash "createdAtMs" a.created
  let cur := k.pttl a.hash
  if cur < 0 ∨ cur < a.reqTtl then (k.pexpire a.hash a.reqTtl, a.reqTtl) else (k, cur)

/-- `TOUCH_SCRIPT` of the API. -/
def apiTouchScript (a : TouchArgs) (k : Keyspace) : Keyspace × ℤ :=
  let k := k.sadd a.hash
  let k := k.hsetnx a.hash "size" a.size
  let k := k.hsetnx a.hash "createdAtMs" a.created
  let cur := k.pttl a.hash
  if cur < 0 ∨ cur < a.reqTtl then (k.pexpire a.hash a.reqTtl, a.reqTtl) else (k, cur)

inductive Party where
  | worker
  | api
  deriving DecidableEq, Repr

/-- A touch with a positive TTL; `Touch` of the worker refuses others. -/
structure Touch where
  party : Party
  hash : Hash
  size : String
  created : String
  ttl : ℕ
  ttl_pos : 0 < ttl

def Touch.args (t : Touch) : TouchArgs := ⟨t.hash, t.size, t.created, t.ttl⟩

/-- Time passes, and keys expire. Whether Redis drops a key in the very millisecond of its expiry
is left to `lapse`. -/
inductive TouchEvent where
  | touch (t : Touch)
  | tick (ms : ℕ) (lapse : Hash → Bool)

def RedisHash.alive (now : ℕ) (lapse : Bool) (m : RedisHash) : Bool :=
  m.expireAt.all fun e => decide (now < e) || decide (now = e) && !lapse

namespace Keyspace

def step (k : Keyspace) : TouchEvent → Keyspace
  | .touch t =>
    match t.party with
    | .worker => (touchScript t.args k).1
    | .api => (apiTouchScript t.args k).1
  | .tick ms lapse =>
    { k with
      now := k.now + ms
      metaKey := fun h => (k.metaKey h).filter (RedisHash.alive (k.now + ms) (lapse h)) }

/-- The keys after some events, with none at first. -/
def after (now : ℕ) (events : List TouchEvent) : Keyspace := events.foldl step (empty now)

end Keyspace

def clock (now : ℕ) : List TouchEvent → ℕ
  | [] => now
  | .touch _ :: events => clock now events
  | .tick ms _ :: events => clock (now + ms) events

def deadlines (h : Hash) (now : ℕ) : List TouchEvent → List ℕ
  | [] => []
  | .touch t :: events =>
    if t.hash = h then (now + t.ttl) :: deadlines h now events else deadlines h now events
  | .tick ms _ :: events => deadlines h (now + ms) events

variable {k : Keyspace} {a : TouchArgs} {t t' : Touch} {h : Hash} {now : ℕ}
  {events : List TouchEvent} {e : TouchEvent} {m : RedisHash}

/-- The expiry after a touch: the later of the old one and the requested one. -/
def extend (old : Option ℕ) (deadline : ℕ) : ℕ := old.elim deadline (max · deadline)

def record (a : TouchArgs) (fields : String → Option String) : String → Option String :=
  Function.update (Function.update fields "size" ((fields "size").or (some a.size)))
    "createdAtMs" ((fields "createdAtMs").or (some a.created))

theorem hsetnx_hsetnx :
    ((k.sadd a.hash).hsetnx a.hash "size" a.size).hsetnx a.hash "createdAtMs" a.created =
      { k with
        index := insert a.hash k.index
        metaKey := Function.update k.metaKey a.hash (some
          ⟨record a ((k.metaKey a.hash).elim (fun _ => none) (·.fields)),
            (k.metaKey a.hash).bind (·.expireAt)⟩) } := by
  cases hm : k.metaKey a.hash <;> simp [Keyspace.hsetnx, Keyspace.sadd, hm, record]

/-- The script in one step. The three cases of `PTTL` come to the later of two deadlines. -/
theorem touchScript_eq (k : Keyspace) (h : 0 < a.reqTtl) :
    (touchScript a k).1 =
      { k with
        index := insert a.hash k.index
        metaKey := Function.update k.metaKey a.hash (some
          ⟨record a ((k.metaKey a.hash).elim (fun _ => none) (·.fields)),
            some (extend ((k.metaKey a.hash).bind (·.expireAt)) (k.now + a.reqTtl.toNat))⟩) } := by
  unfold touchScript
  dsimp only
  rw [hsetnx_hsetnx]
  have hpos : ¬ a.reqTtl ≤ 0 := Int.not_le.mpr h
  generalize (k.metaKey a.hash).bind (·.expireAt) = old
  cases old with
  | none => simp [Keyspace.pttl, Keyspace.pexpire, hpos, extend]
  | some e =>
    by_cases hlonger : ((e - k.now : ℕ) : ℤ) < a.reqTtl
    · have hmax : max e (k.now + a.reqTtl.toNat) = k.now + a.reqTtl.toNat := by omega
      simp [Keyspace.pttl, Keyspace.pexpire, hpos, extend, hlonger, hmax]
    · have hmax : max e (k.now + a.reqTtl.toNat) = e := by omega
      have hcur : ¬ ((e - k.now : ℕ) : ℤ) < 0 := by omega
      simp only [Keyspace.pttl, Function.update_self, hlonger, hcur, or_self, if_false, extend,
        Option.elim_some, hmax]

theorem step_touch (k : Keyspace) (t : Touch) :
    k.step (.touch t) =
      { k with
        index := insert t.hash k.index
        metaKey := Function.update k.metaKey t.hash (some
          ⟨record t.args ((k.metaKey t.hash).elim (fun _ => none) (·.fields)),
            some (extend ((k.metaKey t.hash).bind (·.expireAt)) (k.now + t.ttl))⟩) } := by
  have hpos : 0 < t.args.reqTtl := Int.natCast_pos.mpr t.ttl_pos
  have heq := touchScript_eq (k := k) hpos
  cases hparty : t.party with
  | worker =>
    rw [Keyspace.step, hparty]
    exact heq
  | api =>
    rw [Keyspace.step, hparty]
    exact heq

theorem touch_comm (k : Keyspace) (t t' : Touch) (h : Hash) :
    ((((k.step (.touch t)).step (.touch t')).metaKey h).map (·.expireAt)) =
      (((k.step (.touch t')).step (.touch t)).metaKey h).map (·.expireAt) := by
  simp only [step_touch]
  by_cases hsame : t.hash = t'.hash
  · rw [hsame]
    by_cases hh : h = t'.hash
    · subst hh
      simp only [Function.update_self, Option.map_some, Option.bind_some]
      congr 2
      cases (k.metaKey t'.hash).bind (·.expireAt) with
      | none => exact max_comm _ _
      | some e => exact max_right_comm e _ _
    · simp only [Function.update_of_ne hh]
  · have hsame' : t'.hash ≠ t.hash := fun heq => hsame heq.symm
    by_cases hh : h = t.hash
    · subst hh
      simp [Function.update_of_ne hsame, Function.update_of_ne hsame']
    · by_cases hh' : h = t'.hash
      · subst hh'
        simp [Function.update_of_ne hsame, Function.update_of_ne hsame']
      · simp only [Function.update_of_ne hh, Function.update_of_ne hh']

theorem clock_append (events events' : List TouchEvent) :
    clock now (events ++ events') = clock (clock now events) events' := by
  induction events generalizing now with
  | nil => rfl
  | cons e events ih => cases e <;> exact ih

theorem deadlines_append (events events' : List TouchEvent) :
    deadlines h now (events ++ events') =
      deadlines h now events ++ deadlines h (clock now events) events' := by
  induction events generalizing now with
  | nil => rfl
  | cons e events ih =>
    cases e with
    | touch t =>
      rw [List.cons_append, deadlines, deadlines, clock]
      split
      · rw [ih, List.cons_append]
      · exact ih
    | tick ms lapse => exact ih

theorem deadlines_tick {ms : ℕ} {lapse : Hash → Bool} :
    deadlines h now [.tick ms lapse] = [] := rfl

theorem deadlines_touch (ht : t.hash = h) : deadlines h now [.touch t] = [now + t.ttl] :=
  if_pos ht

theorem deadlines_other (ht : t.hash ≠ h) : deadlines h now [.touch t] = [] := if_neg ht

theorem max?_concat (ds : List ℕ) (d : ℕ) : (ds ++ [d]).max? = some (extend ds.max? d) := by
  cases ds with
  | nil => rfl
  | cons x ds =>
    rw [List.cons_append, List.max?_cons', List.max?_cons', List.foldl_append]
    rfl

theorem after_now (events : List TouchEvent) :
    (Keyspace.after now events).now = clock now events := by
  induction events using List.reverseRecOn with
  | nil => rfl
  | append_singleton events e ih =>
    rw [Keyspace.after, List.foldl_append, ← Keyspace.after, clock_append, ← ih]
    cases e with
    | touch t =>
      rw [List.foldl_cons, List.foldl_nil, step_touch]
      rfl
    | tick ms lapse => rfl

/-- The key of `h` was created by `t` after `before`, has been there in every state since, and is
what the touches of its life make of it. -/
structure Lives (now : ℕ) (h : Hash) (before : List TouchEvent) (t : Touch)
    (later : List TouchEvent) (m : RedisHash) : Prop where
  created : (Keyspace.after now before).metaKey h = none
  alive : ∀ mid, mid <+: later →
    ((Keyspace.after now (before ++ .touch t :: mid)).metaKey h).isSome
  hash : t.hash = h
  size : m.fields "size" = some t.size
  createdAtMs : m.fields "createdAtMs" = some t.created
  expireAt : m.expireAt = (deadlines h (clock now before) (.touch t :: later)).max?

theorem after_concat (events : List TouchEvent) (e : TouchEvent) :
    Keyspace.after now (events ++ [e]) = (Keyspace.after now events).step e :=
  List.foldl_append

variable {before later : List TouchEvent}

theorem Lives.concat {m₀ : RedisHash} (hlife : Lives now h before t later m₀)
    (hm : (Keyspace.after now (before ++ .touch t :: later ++ [e])).metaKey h = some m)
    (hsize : m.fields "size" = m₀.fields "size")
    (hcreated : m.fields "createdAtMs" = m₀.fields "createdAtMs")
    (hexpire : m.expireAt = (deadlines h (clock now before) (.touch t :: later) ++
      deadlines h (clock now (before ++ .touch t :: later)) [e]).max?) :
    Lives now h before t (later ++ [e]) m where
  created := hlife.created
  alive := by
    intro mid hmid
    rcases List.prefix_concat_iff.mp hmid with rfl | hmid
    · rw [List.append_assoc, List.cons_append] at hm
      rw [hm]
      rfl
    · exact hlife.alive mid hmid
  hash := hlife.hash
  size := hsize.trans hlife.size
  createdAtMs := hcreated.trans hlife.createdAtMs
  expireAt := by
    rw [hexpire, ← List.cons_append, deadlines_append, clock_append]

theorem exists_life (now : ℕ) (events : List TouchEvent)
    (hm : (Keyspace.after now events).metaKey h = some m) :
    ∃ before t later, events = before ++ .touch t :: later ∧ Lives now h before t later m := by
  induction events using List.reverseRecOn generalizing m with
  | nil => cases hm
  | append_singleton events e ih =>
    have hafter := hm
    rw [after_concat] at hm
    cases e with
    | tick ms lapse =>
      obtain ⟨hm, -⟩ := Option.filter_eq_some_iff.mp hm
      obtain ⟨before, t, later, rfl, hlife⟩ := ih hm
      refine ⟨before, t, later ++ [.tick ms lapse], by simp, hlife.concat hafter rfl rfl ?_⟩
      rw [deadlines_tick, List.append_nil]
      exact hlife.expireAt
    | touch t' =>
      rw [step_touch] at hm
      dsimp only at hm
      by_cases hh : t'.hash = h
      · subst hh
        rw [Function.update_self, Option.some.injEq] at hm
        cases hold : (Keyspace.after now events).metaKey t'.hash with
        | none =>
          rw [hold] at hm
          subst hm
          refine ⟨events, t', [], rfl, hold, ?_, rfl, rfl, rfl, ?_⟩
          · intro mid hmid
            rw [List.prefix_nil.mp hmid, hafter]
            rfl
          · rw [deadlines, if_pos rfl, ← after_now]
            rfl
        | some m₀ =>
          obtain ⟨before, t, later, rfl, hlife⟩ := ih hold
          rw [hold] at hm
          subst hm
          refine ⟨before, t, later ++ [.touch t'], by simp, hlife.concat hafter ?_ ?_ ?_⟩
          · simp [record, hlife.size]
          · simp [record, hlife.createdAtMs]
          · rw [deadlines_touch rfl, max?_concat, ← hlife.expireAt, after_now]
            rfl
      · rw [Function.update_of_ne (Ne.symm hh)] at hm
        obtain ⟨before, t, later, rfl, hlife⟩ := ih hm
        refine ⟨before, t, later ++ [.touch t'], by simp, hlife.concat hafter rfl rfl ?_⟩
        rw [deadlines_other hh, List.append_nil]
        exact hlife.expireAt

theorem mem_index (now : ℕ) (events : List TouchEvent)
    (hm : (Keyspace.after now events).metaKey h = some m) :
    h ∈ (Keyspace.after now events).index := by
  induction events using List.reverseRecOn generalizing m with
  | nil => cases hm
  | append_singleton events e ih =>
    rw [after_concat] at hm ⊢
    cases e with
    | tick ms lapse => exact ih (Option.filter_eq_some_iff.mp hm).1
    | touch t =>
      rw [step_touch] at hm ⊢
      dsimp only at hm ⊢
      by_cases hh : h = t.hash
      · exact hh ▸ Finset.mem_insert_self ..
      · rw [Function.update_of_ne hh] at hm
        exact Finset.mem_insert_of_mem (ih hm)

/-- In every history a meta key that is there has the size and the creation time of the touch that
created it, expires at the latest deadline of the touches since, and is in the index; and the
order of two touches of one time makes no difference to the expiry. -/
theorem touch_monotone :
    (∀ now events h m, (Keyspace.after now events).metaKey h = some m →
      h ∈ (Keyspace.after now events).index ∧
        ∃ before t later, events = before ++ .touch t :: later ∧
          Lives now h before t later m) ∧
      ∀ (k : Keyspace) (t t' : Touch) (h : Hash),
        ((((k.step (.touch t)).step (.touch t')).metaKey h).map (·.expireAt)) =
          (((k.step (.touch t')).step (.touch t)).metaKey h).map (·.expireAt) :=
  ⟨fun now events _ _ hm => ⟨mem_index now events hm, exists_life now events hm⟩, touch_comm⟩

/-- The API extends what the worker has created. -/
def twoTouches : List TouchEvent :=
  [.touch ⟨.worker, "sha256:00", "5", "1000", 100, by decide⟩, .tick 40 (fun _ => true),
    .touch ⟨.api, "sha256:00", "0", "1040", 100, by decide⟩, .tick 80 (fun _ => true)]

theorem touch_monotone_twoTouches :
    ∃ m, (Keyspace.after 1000 twoTouches).metaKey "sha256:00" = some m ∧
      "sha256:00" ∈ (Keyspace.after 1000 twoTouches).index ∧
      ∃ before t later, twoTouches = before ++ .touch t :: later ∧
        Lives 1000 "sha256:00" before t later m := by
  obtain ⟨m, hm⟩ : ∃ m, (Keyspace.after 1000 twoTouches).metaKey "sha256:00" = some m := ⟨_, rfl⟩
  exact ⟨m, hm, touch_monotone.1 1000 twoTouches "sha256:00" m hm⟩

def RedisHash.Stands (m : RedisHash) (n : Meta) : Prop :=
  m.fields "size" = some n.size.repr ∧ m.fields "createdAtMs" = some n.createdAtMs.repr ∧
    m.expireAt = n.expireAt

structure Keyspace.Stands (k : Keyspace) (s : Store) : Prop where
  now : k.now = s.now
  index : ∀ h, h ∈ k.index ↔ h ∈ s.index
  absent : ∀ h, k.metaKey h = none ↔ s.metaKey h = none
  present : ∀ h m n, k.metaKey h = some m → s.metaKey h = some n → m.Stands n

variable {s : Store} {n : Meta}

theorem touchedMeta_size {size createdAtMs reqTtl : ℕ} :
    (touchedMeta now (some n) size createdAtMs reqTtl).size = n.size := by
  unfold touchedMeta
  rw [Option.getD_some]
  dsimp only
  split
  · rfl
  · split <;> rfl

theorem touchedMeta_createdAtMs {size createdAtMs reqTtl : ℕ} :
    (touchedMeta now (some n) size createdAtMs reqTtl).createdAtMs = n.createdAtMs := by
  unfold touchedMeta
  rw [Option.getD_some]
  dsimp only
  split
  · rfl
  · split <;> rfl

theorem touchedMeta_expireAt {size createdAtMs reqTtl : ℕ} (hpos : 0 < reqTtl) :
    (touchedMeta now (some n) size createdAtMs reqTtl).expireAt =
      some (extend n.expireAt (now + reqTtl)) := by
  unfold touchedMeta
  rw [Option.getD_some]
  dsimp only
  split
  · next hnone => rw [hnone]; rfl
  · next e he =>
    rw [he]
    split
    · next hlonger =>
      have hmax : max e (now + reqTtl) = now + reqTtl := by omega
      simp [extend, hmax]
    · next hlonger =>
      have hmax : max e (now + reqTtl) = e := by omega
      simp [extend, hmax, he]

theorem Keyspace.Stands.touch (hs : k.Stands s) (size createdAtMs reqTtl : ℕ) (hpos : 0 < reqTtl) :
    (touchScript ⟨h, size.repr, createdAtMs.repr, reqTtl⟩ k).1.Stands
      (s.touchScript h size createdAtMs reqTtl) := by
  rw [touchScript_eq k (Int.natCast_pos.mpr hpos)]
  constructor
  · exact hs.now
  · intro h'
    simp [Store.touchScript, List.mem_insert_iff, hs.index]
  · intro h'
    by_cases hh : h' = h
    · simp [hh, Store.touchScript]
    · simpa [Store.touchScript, Function.update_of_ne hh] using hs.absent h'
  · intro h' m n hm hn
    rw [touchScript_metaKey] at hn
    dsimp only at hm
    by_cases hh : h' = h
    · subst hh
      rw [Function.update_self, Option.some.injEq] at hm
      rw [if_pos rfl, Option.some.injEq] at hn
      subst hm hn
      cases hold : k.metaKey h' with
      | none =>
        rw [(hs.absent h').mp hold]
        simp [RedisHash.Stands, record, touchedMeta, extend, hs.now]
      | some m =>
        obtain ⟨n, hn⟩ := Option.ne_none_iff_exists'.mp fun hnone =>
          Option.some_ne_none m (hold.symm.trans ((hs.absent h').mpr hnone))
        obtain ⟨hsize, hcreated, hexpire⟩ := hs.present h' m n hold hn
        rw [hn]
        refine ⟨?_, ?_, ?_⟩
        · simp [record, hsize, touchedMeta_size]
        · simp [record, hcreated, touchedMeta_createdAtMs]
        · rw [touchedMeta_expireAt hpos, Option.bind_some, hexpire, hs.now]
          rfl
    · rw [Function.update_of_ne hh] at hm
      rw [if_neg hh] at hn
      exact hs.present h' m n hm hn

theorem RedisHash.Stands.alive (hm : m.Stands n) : m.alive now true = n.alive now := by
  rw [RedisHash.alive, Meta.alive, hm.2.2]
  simp

theorem Keyspace.Stands.tick {s' : Store} {ms : ℕ} (hs : k.Stands s)
    (htick : s.env (.tick ms) = some s') : (k.step (.tick ms fun _ => true)).Stands s' := by
  obtain rfl := Option.some.inj htick
  have hnow : k.now + ms = s.now + ms := by rw [hs.now]
  constructor
  · exact hnow
  · exact hs.index
  · intro h
    simp only [Keyspace.step, hnow]
    cases hold : k.metaKey h with
    | none => simp [(hs.absent h).mp hold]
    | some m =>
      cases hn : s.metaKey h with
      | none => rw [(hs.absent h).mpr hn] at hold; cases hold
      | some n => simp [Option.filter_some, (hs.present h m n hold hn).alive]
  · intro h m n hm hn
    obtain ⟨hm, -⟩ := Option.filter_eq_some_iff.mp hm
    obtain ⟨hn, -⟩ := Option.filter_eq_some_iff.mp hn
    exact hs.present h m n hm hn

end CodeRunner.Blob
