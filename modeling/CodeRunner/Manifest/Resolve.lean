import CodeRunner.Lib.First
import CodeRunner.Manifest.Registry

/-! # Two resolvers

The API resolves a request by a filter over the manifests, the worker routes the job by its
registry. They agree on a name and a version exactly when the first manifest that either of
them goes by is one that both go by.
-/

namespace CodeRunner

open Fallible FirstMatch

/-- `ManifestSchema`, past the types of the fields. -/
def manifestSchema (m : Manifest) : Bool :=
  m.language ≠ "" && m.version ≠ "" && m.image ≠ "" && m.entrypoint ≠ "" && m.run ≠ [] &&
    m.defaultLimits.fields.all (fun f => 1 ≤ f.2) &&
    1 ≤ m.defaultLimits.maxArtifacts && 1 ≤ m.defaultLimits.maxArtifactBytes

/-- Fails with the path of the offending file. -/
def loadManifests : List (String × Manifest) → Except String (List Manifest)
  | [] => .ok []
  | file :: files =>
    if manifestSchema file.2 then (loadManifests files).map (file.2 :: ·) else .error file.1

def resolveManifest (manifests : List Manifest) (language : String) (version : Option String) :
    Except NotFound Manifest :=
  match manifests.filter fun m => m.language = language || language ∈ m.aliases with
  | [] => .error (.language language)
  | first :: rest =>
    match version with
    | none => .ok first
    | some version =>
      match (first :: rest).find? (·.version = version) with
      | none => .error (.version language version)
      | some m => .ok m

def Manifest.bears (m : Manifest) (name : String) : Bool := m.language = name || m.aliased name

/-- The registry looks the versions of a name up under the language of this manifest. -/
def Leads (ms : List Manifest) (name : String) (o : Manifest) : Prop :=
  First (·.keyed name) ms o ∨
    (∀ m ∈ ms, m.keyed name = false) ∧ First (·.aliased name) ms o

/-- No manifest is gone by that the other resolver passes over. -/
def Agrees (ms : List Manifest) (name : String) : Option String → Prop
  | none =>
    (∃ m ∈ ms, m.keyed name = true) →
      ∀ x, First (fun m => m.keyed name || m.bears name) ms x →
        x.keyed name = true ∧ x.bears name = true
  | some version =>
    if version = "" then ∀ m ∈ ms, m.keyed name = false ∧ m.bears name = false
    else ∀ o, Leads ms name o →
      ∀ x, First (fun m => m.keyed (vkey o.language version) ||
          (m.bears name && m.version = version)) ms x →
        x.keyed (vkey o.language version) = true ∧ (x.bears name && x.version = version) = true

variable {r : Registry} {ms : List Manifest} {m o : Manifest} {name version : String}
  {files : List (String × Manifest)}

theorem loadManifests_ok (h : loadManifests files = .ok ms) : files.map Prod.snd = ms := by
  induction files generalizing ms with
  | nil => exact Except.ok.inj h
  | cons file files ih =>
    unfold loadManifests at h
    split at h
    · obtain ⟨rest, hrest, rfl⟩ := map_ok_iff.mp h
      exact congrArg (file.2 :: ·) (ih hrest)
    · cases h

theorem bears_eq_aliased (h : m.keyed name = false) : m.bears name = m.aliased name := by
  obtain ⟨-, hlang⟩ := Bool.or_eq_false_iff.mp h
  exact congrArg (· || m.aliased name) hlang

theorem keyed_or_bears :
    (m.keyed name = false ∧ m.bears name = false) ↔
      m.keyed name = false ∧ m.aliased name = false :=
  and_congr_right fun h => by rw [bears_eq_aliased h]

theorem resolve_toOption (r : Registry) (name version : String) :
    (r.resolve name version).toOption =
      if version = "" then r.lookup name
      else (r.lookup name).bind fun o => r.byKey (vkey o.language version) := by
  unfold Registry.resolve
  cases r.lookup name with
  | none => exact (ite_self none).symm
  | some o =>
    by_cases hv : version = ""
    · simp only [hv, ne_eq, not_true_eq_false, if_false, if_true]
      rfl
    · simp only [hv, ne_eq, not_false_eq_true, if_true, if_false, Option.bind_some]
      cases r.byKey (vkey o.language version) <;> rfl

theorem resolveManifest_toOption (ms : List Manifest) (name : String) (version : Option String) :
    (resolveManifest ms name version).toOption =
      match version with
      | none => ms.find? (·.bears name)
      | some version => ms.find? fun m => m.bears name && m.version = version := by
  have hfilter : (ms.filter fun m => m.language = name || name ∈ m.aliases) =
      ms.filter (·.bears name) := rfl
  have hhead : (ms.filter (·.bears name)).head? = ms.find? (·.bears name) := List.head?_filter
  have hfind : ∀ version : String, (ms.filter (·.bears name)).find? (·.version = version) =
      ms.find? fun m => m.bears name && m.version = version := by
    intro version
    simp [List.find?_filter]
  unfold resolveManifest
  rw [hfilter]
  cases hms : ms.filter (·.bears name) with
  | nil =>
    rw [hms] at hhead hfind
    cases version with
    | none => exact hhead
    | some version => exact hfind version
  | cons first rest =>
    rw [hms] at hhead hfind
    cases version with
    | none => exact hhead
    | some version =>
      dsimp only
      rw [← hfind version]
      cases (first :: rest).find? (·.version = version) <;> rfl

theorem Registry.Indexes.lookup (hr : r.Indexes ms) (name : String) :
    r.lookup name = (ms.find? (·.keyed name)).or (ms.find? (·.aliased name)) := by
  unfold Registry.lookup
  rw [hr.byKey, hr.byAlias]

theorem Registry.Indexes.lookup_eq_some_iff (hr : r.Indexes ms) :
    r.lookup name = some o ↔ Leads ms name o := by
  rw [hr.lookup, Option.or_eq_some_iff, ← first_iff_find?, ← first_iff_find?, Leads,
    List.find?_eq_none]
  simp only [Bool.not_eq_true]

theorem Registry.Indexes.lookup_eq_none_iff (hr : r.Indexes ms) :
    r.lookup name = none ↔ ∀ m ∈ ms, m.keyed name = false ∧ m.bears name = false := by
  rw [hr.lookup, Option.or_eq_none_iff, List.find?_eq_none, List.find?_eq_none]
  simp only [Bool.not_eq_true, keyed_or_bears, forall_and]

theorem find?_bears_of_lookup_none (hr : r.Indexes ms) (h : r.lookup name = none)
    (p : Manifest → Bool) : (ms.find? fun m => m.bears name && p m) = none := by
  rw [List.find?_eq_none]
  intro m hm
  simp [(hr.lookup_eq_none_iff.mp h m hm).2]

theorem agrees_none_iff (hr : r.Indexes ms) :
    r.lookup name = ms.find? (·.bears name) ↔ Agrees ms name none := by
  rw [hr.lookup]
  by_cases hkeyed : ∃ m ∈ ms, m.keyed name = true
  · obtain ⟨o, ho⟩ : ∃ o, First (·.keyed name) ms o := by
      obtain ⟨m, hm, hkey⟩ := hkeyed
      exact exists_first hm hkey
    have hor : (ms.find? (·.keyed name)).or (ms.find? (·.aliased name)) =
        ms.find? (·.keyed name) := by
      rw [first_iff_find?.mp ho]
      rfl
    rw [hor, find?_eq_find?_iff]
    exact ⟨fun h _ => h, fun h => h hkeyed⟩
  · have hnone : ∀ m ∈ ms, m.keyed name = false := by
      intro m hm
      by_contra hkey
      exact hkeyed ⟨m, hm, Bool.not_eq_false _ ▸ hkey⟩
    have hkey : ms.find? (·.keyed name) = none :=
      List.find?_eq_none.mpr fun m hm => by simp [hnone m hm]
    have hbears : ms.find? (·.bears name) = ms.find? (·.aliased name) := by
      rw [find?_eq_find?_iff]
      intro x hx
      have heq := bears_eq_aliased (hnone x hx.mem)
      have haliased := hx.holds
      rw [heq, Bool.or_self] at haliased
      exact ⟨heq.trans haliased, haliased⟩
    rw [hkey, hbears]
    exact iff_of_true rfl fun h => absurd h hkeyed

theorem agrees_empty_iff (hr : r.Indexes ms) :
    (r.lookup name = ms.find? fun m => m.bears name && m.version = "") ↔
      Agrees ms name (some "") := by
  have hnone : (ms.find? fun m => m.bears name && m.version = "") = none := by
    rw [List.find?_eq_none]
    intro m hm
    simp [(hr.valid m hm).2]
  rw [hnone, hr.lookup_eq_none_iff, Agrees, if_pos rfl]

theorem agrees_version_iff (hr : r.Indexes ms) (hv : version ≠ "") :
    ((r.lookup name).bind fun o => r.byKey (vkey o.language version)) =
        (ms.find? fun m => m.bears name && m.version = version) ↔
      Agrees ms name (some version) := by
  rw [Agrees, if_neg hv]
  cases hlookup : r.lookup name with
  | none =>
    rw [find?_bears_of_lookup_none hr hlookup]
    refine iff_of_true rfl fun o ho => ?_
    rw [hr.lookup_eq_some_iff.mpr ho] at hlookup
    cases hlookup
  | some o =>
    rw [Option.bind_some, hr.byKey, find?_eq_find?_iff]
    constructor
    · intro h o' ho'
      rw [hr.lookup_eq_some_iff.mpr ho'] at hlookup
      obtain rfl := Option.some.inj hlookup
      exact h
    · intro h
      exact h o (hr.lookup_eq_some_iff.mp hlookup)

theorem agrees_iff (hr : r.Indexes ms) (name : String) (version : Option String) :
    (r.resolve name (version.getD "")).toOption = (resolveManifest ms name version).toOption ↔
      Agrees ms name version := by
  rw [resolve_toOption, resolveManifest_toOption]
  cases version with
  | none => exact agrees_none_iff hr
  | some version =>
    by_cases hv : version = ""
    · subst hv
      exact agrees_empty_iff hr
    · rw [Option.getD_some, if_neg hv]
      exact agrees_version_iff hr hv

theorem keyed_vkey (m : Manifest) : m.keyed (vkey m.language m.version) = true := by
  simp [Manifest.keyed]

theorem keyed_language (m : Manifest) : m.keyed m.language = true := by
  simp [Manifest.keyed]

theorem language_of_vkey {language language' version : String}
    (h : vkey language version = vkey language' version) : language = language' := by
  unfold vkey at h
  simpa using h

theorem Registry.Indexes.first_vkey (hr : r.Indexes ms) (hm : m ∈ ms) :
    First (·.keyed (vkey m.language m.version)) ms m := by
  obtain ⟨pre, post, rfl⟩ := List.append_of_mem hm
  obtain ⟨-, -, hpre⟩ := List.pairwise_append.mp hr.keys
  exact .append (fun y hy => hpre y hy m List.mem_cons_self) (.here (keyed_vkey m))

theorem Registry.Indexes.resolve_ok_iff (hr : r.Indexes ms) (hm : m ∈ ms) {x : Manifest} :
    r.resolve m.language m.version = .ok x ↔
      ∃ o, First (·.keyed m.language) ms o ∧
        First (·.keyed (vkey o.language m.version)) ms x := by
  obtain ⟨o, ho⟩ := exists_first (p := (·.keyed m.language)) hm (keyed_language m)
  have hlookup : r.lookup m.language = some o := hr.lookup_eq_some_iff.mpr (.inl ho)
  have hresolve : r.resolve m.language m.version = .ok x ↔
      First (·.keyed (vkey o.language m.version)) ms x := by
    unfold Registry.resolve
    rw [hlookup]
    simp only [ne_eq, (hr.valid m hm).2, not_false_eq_true, if_true]
    rw [first_iff_find?, ← hr.byKey]
    cases r.byKey (vkey o.language m.version) with
    | none => exact iff_of_false nofun nofun
    | some x => simp only [Except.ok.injEq, Option.some.injEq]
  rw [hresolve]
  constructor
  · intro hx
    exact ⟨o, ho, hx⟩
  · rintro ⟨o', ho', hx⟩
    rwa [ho.unique ho']

theorem resolve_self_iff (hr : r.Indexes ms) (hm : m ∈ ms) :
    r.resolve m.language m.version = .ok m ↔
      ∀ o, First (·.keyed m.language) ms o → o.language = m.language := by
  rw [hr.resolve_ok_iff hm]
  constructor
  · rintro ⟨o, ho, hfirst⟩ o' ho'
    obtain rfl := ho.unique ho'
    rcases Bool.or_eq_true _ _ ▸ hfirst.holds with hkey | hlang
    · exact (language_of_vkey (of_decide_eq_true hkey)).symm
    · have hkey := of_decide_eq_true hlang
      rw [← hkey] at hfirst
      rw [ho.unique hfirst]
  · intro h
    obtain ⟨o, ho⟩ := exists_first (p := (·.keyed m.language)) hm (keyed_language m)
    refine ⟨o, ho, ?_⟩
    rw [h o ho]
    exact hr.first_vkey hm

/-- On a list that both loaders accept: the condition is on the order in which names, aliases and
`language@version` keys occur in it. -/
theorem resolvers_agree_iff (hgo : Registry.load files = .ok r)
    (hts : loadManifests files = .ok ms) :
    (∀ name version,
      (r.resolve name (version.getD "")).toOption = (resolveManifest ms name version).toOption ↔
        Agrees ms name version) ∧
      ∀ m ∈ ms, r.resolve m.language m.version = .ok m ↔
        ∀ o, First (·.keyed m.language) ms o → o.language = m.language := by
  have hr : r.Indexes ms := loadManifests_ok hts ▸ load_indexes hgo
  constructor
  · intro name version
    exact agrees_iff hr name version
  · intro m hm
    exact resolve_self_iff hr hm

def python (version : String) (aliases : List String) : Manifest where
  language := "python"
  version := version
  aliases := aliases
  image := "executor/python:" ++ version
  entrypoint := "main.py"
  compile := none
  run := ["python", "main.py"]
  interactive := true
  preimport := some ["numpy", "pandas"]
  defaultLimits := ⟨15000, 10000, 4194304, 20, 128, 512, 64, 30000⟩

/-- Two versions of a language; only one of them can declare the alias. -/
def twoPythons : List (String × Manifest) :=
  [("languages/python-3.11/manifest.json", python "3.11" ["py"]),
    ("languages/python-3.12/manifest.json", python "3.12" [])]

theorem resolvers_agree_twoPythons :
    ∃ r, Registry.load twoPythons = .ok r ∧
      ∀ m ∈ twoPythons.map Prod.snd, r.resolve m.language m.version = .ok m := by
  have hlanguage : ∀ m ∈ twoPythons.map Prod.snd, m.language = "python" := by decide
  refine ⟨_, rfl, fun m hm => ?_⟩
  refine ((resolvers_agree_iff rfl (rfl : loadManifests twoPythons = _)).2 m hm).mpr fun o ho => ?_
  exact (hlanguage o ho.mem).trans (hlanguage m hm).symm

theorem not_resolvers_agree :
    ¬ ∀ (files : List (String × Manifest)) (r : Registry) (ms : List Manifest),
      Registry.load files = .ok r → loadManifests files = .ok ms →
        (∀ name version, (∃ m ∈ ms, m.bears name = true) →
          (r.resolve name (version.getD "")).toOption =
            (resolveManifest ms name version).toOption) ∧
          ∀ m ∈ ms, r.resolve m.language m.version = .ok m := by
  intro hall
  have hpy : ∃ m ∈ twoPythons.map Prod.snd, m.bears "py" = true :=
    ⟨python "3.11" ["py"], by decide, by decide⟩
  have heq := (hall twoPythons _ _ rfl rfl).1 "py" (some "3.12") hpy
  have hgo : (resolveManifest (twoPythons.map Prod.snd) "py" (some "3.12")).toOption =
      some (python "3.12" []) := heq.symm.trans rfl
  exact absurd hgo (by decide)

/-- No name contains an `@`, no alias is a language, and a language with aliases has one
version. -/
structure Plain (ms : List Manifest) : Prop where
  at_sign : ∀ m ∈ ms, ∀ name, m.bears name = true → '@' ∉ name.toList
  names : ∀ m ∈ ms, ∀ m' ∈ ms, m'.language ∉ m.aliases
  versions : ∀ m ∈ ms, m.aliases ≠ [] → ∀ m' ∈ ms, m'.language = m.language → m' = m

theorem takeWhile_vkey {language : String} (h : '@' ∉ language.toList) (version : String) :
    (vkey language version).toList.takeWhile (· ≠ '@') = language.toList := by
  have hpos : ∀ c ∈ language.toList, decide (c ≠ '@') = true := by
    rintro c hc
    exact decide_eq_true fun hat => h (hat ▸ hc)
  have hat : "@".toList = ['@'] := rfl
  unfold vkey
  rw [String.toList_append, String.toList_append, List.append_assoc, hat,
    List.takeWhile_append_of_pos hpos, List.singleton_append,
    List.takeWhile_cons_of_neg (by decide), List.append_nil]

theorem vkey_inj {language language' version version' : String}
    (h : '@' ∉ language.toList) (h' : '@' ∉ language'.toList)
    (heq : vkey language version = vkey language' version') :
    language = language' ∧ version = version' := by
  have hlang : language = language' := by
    apply String.toList_injective
    rw [← takeWhile_vkey h version, ← takeWhile_vkey h' version', heq]
  subst hlang
  unfold vkey at heq
  exact ⟨rfl, by simpa using heq⟩

theorem ne_vkey (h : '@' ∉ name.toList) (language version : String) :
    vkey language version ≠ name := by
  rintro rfl
  apply h
  simp [vkey]

theorem keyed_iff (hat : '@' ∉ name.toList) (m : Manifest) :
    m.keyed name = true ↔ m.language = name := by
  simp [Manifest.keyed, ne_vkey hat]

theorem Registry.Indexes.alias_unique (hr : r.Indexes ms) (hm : m ∈ ms) (ho : o ∈ ms)
    (h : m.aliased name = true) (h' : o.aliased name = true) : m = o := by
  have hpair : ms.Pairwise fun x y => x.aliased name = true → y.aliased name = true → x = y :=
    hr.aliases.imp fun hfree hx hy => by
      rw [hfree name (of_decide_eq_true hy)] at hx
      cases hx
  have hflip : ms.Pairwise fun x y => y.aliased name = true → x.aliased name = true → y = x :=
    hpair.imp fun heq hy hx => (heq hx hy).symm
  exact List.Pairwise.forall_of_forall_of_flip (fun _ _ _ _ => rfl) hpair hflip hm ho h h'

section Plain

variable (hplain : Plain ms)
include hplain

theorem Plain.at_language (hm : m ∈ ms) : '@' ∉ m.language.toList :=
  hplain.at_sign m hm m.language (by simp [Manifest.bears])

theorem Plain.keyed_vkey_iff (hm : m ∈ ms) (ho : o ∈ ms) :
    m.keyed (vkey o.language version) = true ↔ m.language = o.language ∧ m.version = version := by
  have hlang : vkey o.language version ≠ m.language :=
    ne_vkey (hplain.at_language hm) o.language version
  simp only [Manifest.keyed, Bool.or_eq_true, decide_eq_true_eq, Ne.symm hlang, or_false]
  constructor
  · exact vkey_inj (hplain.at_language hm) (hplain.at_language ho)
  · rintro ⟨hl, hv⟩
    rw [hl, hv]

theorem Plain.bears_language_iff (hm : m ∈ ms) (ho : o ∈ ms) :
    m.bears o.language = true ↔ m.language = o.language := by
  simp [Manifest.bears, Manifest.aliased, hplain.names m hm o ho]

theorem Plain.bears_alias_iff (hr : r.Indexes ms) (hm : m ∈ ms) (ho : o ∈ ms)
    (halias : o.aliased name = true) (hkey : m.keyed name = false) :
    m.bears name = true ↔ m.language = o.language := by
  have haliases : o.aliases ≠ [] := List.ne_nil_of_mem (of_decide_eq_true halias)
  rw [bears_eq_aliased hkey]
  constructor
  · intro h
    rw [hr.alias_unique hm ho h halias]
  · intro h
    rwa [hplain.versions o ho haliases m hm h]

theorem Plain.agrees (hr : r.Indexes ms) (hname : ∃ m ∈ ms, m.bears name = true)
    {version : Option String} (hv : version ≠ some "") : Agrees ms name version := by
  obtain ⟨b, hb, hbears⟩ := hname
  have hat : '@' ∉ name.toList := hplain.at_sign b hb name hbears
  cases version with
  | none =>
    rintro ⟨o, ho, hkey⟩ x hx
    obtain rfl := (keyed_iff hat o).mp hkey
    have hsame : ∀ m ∈ ms, m.keyed o.language = true ↔ m.bears o.language = true := by
      intro m hm
      rw [keyed_iff hat m, hplain.bears_language_iff hm ho]
    exact First.both hsame (x := x) hx
  | some version =>
    rw [Agrees, if_neg fun h => hv (congrArg some h)]
    rintro o hleads x hx
    refine hx.both fun m hm => ?_
    rw [Bool.and_eq_true, decide_eq_true_eq]
    rcases hleads with hfirst | ⟨hnone, hfirst⟩
    · obtain rfl := (keyed_iff hat o).mp hfirst.holds
      rw [hplain.keyed_vkey_iff hm hfirst.mem, hplain.bears_language_iff hm hfirst.mem]
    · rw [hplain.keyed_vkey_iff hm hfirst.mem,
        hplain.bears_alias_iff hr hm hfirst.mem hfirst.holds (hnone m hm)]

theorem Plain.resolve_self (hr : r.Indexes ms) (hm : m ∈ ms) :
    r.resolve m.language m.version = .ok m := by
  rw [resolve_self_iff hr hm]
  intro o ho
  exact (keyed_iff (hplain.at_language hm) o).mp ho.holds

end Plain

end CodeRunner
