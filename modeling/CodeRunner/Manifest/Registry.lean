import CodeRunner.Lib.Fallible
import CodeRunner.Wire
import Mathlib.Data.List.Basic
import Mathlib.Logic.Function.Basic

/-! # The manifest registry of the worker

`Load` indexes the manifests by language, by language and version and by alias, `Resolve` looks a
name and a version up. A key keeps the manifest that was indexed under it first.
-/

namespace CodeRunner

open Fallible

structure Manifest where
  language : String
  version : String
  aliases : List String
  image : String
  entrypoint : String
  compile : Option (List String)
  run : List String
  interactive : Bool
  preimport : Option (List String)
  defaultLimits : Limits
  deriving DecidableEq, Repr

/-- What `Load` fails with, each with what its text names. -/
inductive LoadError where
  | emptyField (path field : String)
  | emptyRun (path : String)
  | limit (path field : String) (value : Int64)
  | duplicateVersion (language version image path : String)
  | duplicateAlias (name language version path : String)
  deriving DecidableEq, Repr

def Limits.fields (l : Limits) : List (String × Int64) :=
  [("defaultLimits.wallTimeMs", l.wallTimeMs), ("defaultLimits.idleMs", l.idleMs),
    ("defaultLimits.cpuMs", l.cpuMs), ("defaultLimits.memoryMb", l.memoryMb),
    ("defaultLimits.pids", l.pids), ("defaultLimits.outputKb", l.outputKb)]

def validateLimits (l : Limits) (path : String) : Option LoadError :=
  (l.fields.find? fun f => f.2 < 1).map fun f => .limit path f.1 f.2

def Manifest.validate (m : Manifest) (path : String) : Option LoadError :=
  if m.language = "" then some (.emptyField path "language")
  else if m.version = "" then some (.emptyField path "version")
  else if m.image = "" then some (.emptyField path "image")
  else if m.entrypoint = "" then some (.emptyField path "entrypoint")
  else if m.run = [] then some (.emptyRun path)
  else validateLimits m.defaultLimits path

def vkey (language version : String) : String := language ++ "@" ++ version

structure Registry where
  byKey : String → Option Manifest
  byAlias : String → Option Manifest
  all : List Manifest

namespace Registry

def empty : Registry := ⟨fun _ => none, fun _ => none, []⟩

def index (r : Registry) (m : Manifest) (path : String) : Except LoadError Registry :=
  match r.byKey (vkey m.language m.version) with
  | some existing => .error (.duplicateVersion m.language m.version existing.image path)
  | none =>
    match m.aliases.findSome? fun name => (r.byAlias name).map fun existing => (name, existing) with
    | some (name, existing) =>
      .error (.duplicateAlias name existing.language existing.version path)
    | none =>
      let byKey := Function.update r.byKey (vkey m.language m.version) (some m)
      .ok
        { byKey := if (byKey m.language).isSome then byKey
            else Function.update byKey m.language (some m)
          byAlias := m.aliases.foldl (fun byAlias name => Function.update byAlias name (some m))
            r.byAlias
          all := r.all ++ [m] }

def loadOne (r : Registry) (file : String × Manifest) : Except LoadError Registry :=
  match file.2.validate file.1 with
  | some err => .error err
  | none => r.index file.2 file.1

/-- The manifests that are found, in the order of their paths. -/
def load (files : List (String × Manifest)) : Except LoadError Registry :=
  files.foldlM loadOne .empty

def lookup (r : Registry) (nameOrAlias : String) : Option Manifest :=
  (r.byKey nameOrAlias).or (r.byAlias nameOrAlias)

end Registry

/-- `ErrNotFound`, with what its text names. -/
inductive NotFound where
  | language (name : String)
  | version (name version : String)
  deriving DecidableEq, Repr

/-- The empty version is no version. -/
def Registry.resolve (r : Registry) (language version : String) : Except NotFound Manifest :=
  match r.lookup language with
  | none => .error (.language language)
  | some m =>
    if version ≠ "" then
      match r.byKey (vkey m.language version) with
      | none => .error (.version language version)
      | some versioned => .ok versioned
    else .ok m

def preimports (m : Manifest) : List String := m.preimport.getD []

def zygoteEligible (m : Manifest) : Bool := 0 < (preimports m).length

/-- The manifest goes into `byKey` under this key. -/
def Manifest.keyed (m : Manifest) (key : String) : Bool :=
  vkey m.language m.version = key || m.language = key

def Manifest.aliased (m : Manifest) (name : String) : Bool := name ∈ m.aliases

structure Registry.Indexes (r : Registry) (ms : List Manifest) : Prop where
  byKey : ∀ key, r.byKey key = ms.find? (·.keyed key)
  byAlias : ∀ name, r.byAlias name = ms.find? (·.aliased name)
  keys : ms.Pairwise fun m m' => m.keyed (vkey m'.language m'.version) = false
  aliases : ms.Pairwise fun m m' => ∀ name ∈ m'.aliases, m.aliased name = false
  valid : ∀ m ∈ ms, m.language ≠ "" ∧ m.version ≠ ""

variable {r r' : Registry} {ms : List Manifest} {m : Manifest} {path key name : String}
  {files : List (String × Manifest)}

theorem Registry.Indexes.empty : Registry.empty.Indexes [] :=
  ⟨fun _ => rfl, fun _ => rfl, .nil, .nil, nofun⟩

theorem update_aliases (names : List String) (byAlias : String → Option Manifest) :
    names.foldl (fun byAlias name => Function.update byAlias name (some m)) byAlias name =
      if name ∈ names then some m else byAlias name := by
  induction names generalizing byAlias with
  | nil => rfl
  | cons n names ih =>
    rw [List.foldl_cons, ih]
    by_cases hmem : name ∈ names
    · rw [if_pos hmem, if_pos (List.mem_cons_of_mem _ hmem)]
    · rw [if_neg hmem, Function.update_apply]
      simp [hmem]

theorem language_ne_vkey (language version : String) : language ≠ vkey language version := by
  intro h
  have hlen := congrArg String.length h
  simp only [vkey, String.length_append] at hlen
  have hat : "@".length = 1 := by decide
  omega

theorem find?_concat (p : Manifest → Bool) :
    (ms ++ [m]).find? p = (ms.find? p).or (if p m then some m else none) := by
  rw [List.find?_append, List.find?_singleton]

theorem index_ok (h : r.index m path = .ok r') :
    r.byKey (vkey m.language m.version) = none ∧ (∀ name ∈ m.aliases, r.byAlias name = none) ∧
      (∀ key, r'.byKey key = (r.byKey key).or (if m.keyed key then some m else none)) ∧
      ∀ name, r'.byAlias name = if name ∈ m.aliases then some m else r.byAlias name := by
  unfold Registry.index at h
  split at h
  · cases h
  · next hkey =>
    split at h
    · cases h
    · next halias =>
      obtain rfl := Except.ok.inj h
      refine ⟨hkey, fun name hname => ?_, fun key => ?_, fun name => update_aliases _ _⟩
      · simpa using List.findSome?_eq_none_iff.mp halias name hname
      · have hne := language_ne_vkey m.language m.version
        dsimp only
        rw [Function.update_of_ne hne]
        by_cases hversion : key = vkey m.language m.version
        · subst hversion
          rw [hkey]
          split <;> simp [Manifest.keyed, Function.update_of_ne (Ne.symm hne)]
        · by_cases hlang : key = m.language
          · subst hlang
            cases hold : r.byKey m.language with
            | some x => simp [Function.update_of_ne hne, hold]
            | none => simp [Manifest.keyed]
          · split <;> simp [Manifest.keyed, Function.update_of_ne hversion,
              Function.update_of_ne hlang, Ne.symm hversion, Ne.symm hlang]

theorem validate_none (h : m.validate path = none) : m.language ≠ "" ∧ m.version ≠ "" := by
  unfold Manifest.validate at h
  split at h
  · cases h
  · next hlang =>
    split at h
    · cases h
    · next hversion => exact ⟨hlang, hversion⟩

theorem Registry.Indexes.index (hr : r.Indexes ms) (hm : m.language ≠ "" ∧ m.version ≠ "")
    (h : r.index m path = .ok r') : r'.Indexes (ms ++ [m]) := by
  obtain ⟨hkey, halias, hbyKey, hbyAlias⟩ := index_ok h
  have hfree : ∀ name ∈ m.aliases, ∀ y ∈ ms, y.aliased name = false := by
    intro name hname y hy
    have hnone := halias name hname
    rw [hr.byAlias, List.find?_eq_none] at hnone
    exact Bool.not_eq_true _ ▸ hnone y hy
  constructor
  · intro key
    rw [find?_concat, hbyKey, hr.byKey]
  · intro name
    rw [find?_concat, hbyAlias, hr.byAlias]
    by_cases hname : name ∈ m.aliases
    · have hnone : ms.find? (·.aliased name) = none :=
        (hr.byAlias name).symm.trans (halias name hname)
      rw [if_pos hname, hnone]
      simp [Manifest.aliased, hname]
    · rw [if_neg hname]
      simp [Manifest.aliased, hname]
  · rw [List.pairwise_append]
    refine ⟨hr.keys, List.pairwise_singleton _ _, fun y hy x hx => ?_⟩
    obtain rfl := List.mem_singleton.mp hx
    rw [hr.byKey, List.find?_eq_none] at hkey
    exact Bool.not_eq_true _ ▸ hkey y hy
  · rw [List.pairwise_append]
    refine ⟨hr.aliases, List.pairwise_singleton _ _, fun y hy x hx name hname => ?_⟩
    obtain rfl := List.mem_singleton.mp hx
    exact hfree name hname y hy
  · intro x hx
    rcases List.mem_append.mp hx with hx | hx
    · exact hr.valid x hx
    · obtain rfl := List.mem_singleton.mp hx
      exact hm

theorem Registry.Indexes.loadOne {file : String × Manifest} (hr : r.Indexes ms)
    (h : r.loadOne file = .ok r') : r'.Indexes (ms ++ [file.2]) := by
  unfold Registry.loadOne at h
  split at h
  · cases h
  · next hvalid => exact hr.index (validate_none hvalid) h

theorem load_indexes (h : Registry.load files = .ok r) : r.Indexes (files.map Prod.snd) := by
  have hfold : ∀ (files : List (String × Manifest)) (r₀ : Registry) (ms : List Manifest),
      r₀.Indexes ms → files.foldlM Registry.loadOne r₀ = .ok r →
        r.Indexes (ms ++ files.map Prod.snd) := by
    intro files
    induction files with
    | nil =>
      intro r₀ ms h₀ h
      obtain rfl := Except.ok.inj h
      rwa [List.map_nil, List.append_nil]
    | cons file files ih =>
      intro r₀ ms h₀ h
      rw [List.foldlM_cons] at h
      obtain ⟨r₁, hone, h⟩ := bind_ok_iff.mp h
      have htail := ih r₁ _ (h₀.loadOne hone) h
      rwa [List.append_assoc] at htail
  exact hfold files .empty [] .empty h

end CodeRunner
