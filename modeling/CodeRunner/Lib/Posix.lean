import Mathlib.Data.List.Basic
import Mathlib.Data.List.DropRight
import Mathlib.Data.List.Infix
import Mathlib.Data.Nat.Notation

/-! # Paths of a POSIX system

A path is a list of characters, cut into segments at its slashes. `join`, `normpath`, `dirname` and
`relpath` are those of Python's `posixpath`, `clean`, `base` and `dir` those of Go's `path`. A
normalized absolute path is one or two slashes and segments that are neither empty nor refer to a
directory, and it says which these are.
-/

namespace Posix

instance lawfulBEq : LawfulBEq (List Char) := inferInstance

/-- The segments with slashes between them. -/
def render (segments : List (List Char)) : List Char := ['/'].intercalate segments

def join (path name : List Char) : List Char :=
  if name.head? = some '/' then name
  else if path = [] ∨ path.getLast? = some '/' then path ++ name
  else path ++ '/' :: name

/-- One segment of `normpath`: `..` takes the segment before it away, and stays where there is
none to take and the path is relative. -/
def push (rooted : Bool) (comps : List (List Char)) (comp : List Char) : List (List Char) :=
  if comp = [] ∨ comp = ['.'] then comps
  else if comp ≠ ['.', '.'] ∨ (rooted = false ∧ comps = []) ∨ comps.getLast? = some ['.', '.'] then
    comps ++ [comp]
  else comps.dropLast

def resolve (rooted : Bool) (comps : List (List Char)) : List (List Char) :=
  comps.foldl (push rooted) []

def leadingSlashes (path : List Char) : ℕ :=
  if path.head? ≠ some '/' then 0
  else if ['/', '/'] <+: path ∧ ¬['/', '/', '/'] <+: path then 2 else 1

def normpath (path : List Char) : List Char :=
  if path = [] then ['.']
  else
    let initialSlashes := leadingSlashes path
    let comps := resolve (initialSlashes ≠ 0) (path.splitOn '/')
    let path := List.replicate initialSlashes '/' ++ render comps
    if path = [] then ['.'] else path

def dirname (path : List Char) : List Char :=
  let head := path.rdropWhile (· ≠ '/')
  if head.all (· = '/') then head else head.rdropWhile (· = '/')

def abspath (cwd path : List Char) : List Char := normpath (join cwd path)

def commonPrefix : List (List Char) → List (List Char) → ℕ
  | a :: l, b :: m => if a = b then commonPrefix l m + 1 else 0
  | _, _ => 0

def relpath (cwd path start : List Char) : List Char :=
  let startList := ((abspath cwd start).splitOn '/').filter (· ≠ [])
  let pathList := ((abspath cwd path).splitOn '/').filter (· ≠ [])
  let i := commonPrefix startList pathList
  match List.replicate (startList.length - i) ['.', '.'] ++ pathList.drop i with
  | [] => ['.']
  | a :: relList => relList.foldl join a

def clean (path : List Char) : List Char :=
  if path = [] then ['.']
  else
    let rooted := path.head? = some '/'
    let out := (if rooted then ['/'] else []) ++ render (resolve rooted (path.splitOn '/'))
    if out = [] then ['.'] else out

def base (path : List Char) : List Char :=
  if path = [] then ['.']
  else
    let path := path.rdropWhile (· = '/')
    if path = [] then ['/'] else path.rtakeWhile (· ≠ '/')

def dir (path : List Char) : List Char := clean (path.rdropWhile (· ≠ '/'))

/-- A segment that is neither empty nor `.` nor `..`, without a slash. -/
def IsName (s : List Char) : Prop := s ∉ [[], ['.'], ['.', '.']] ∧ '/' ∉ s

def Normal (comps : List (List Char)) : Prop := ∀ s ∈ comps, IsName s

instance (s : List Char) : Decidable (IsName s) := inferInstanceAs (Decidable (_ ∧ _))

instance (comps : List (List Char)) : Decidable (Normal comps) :=
  inferInstanceAs (Decidable (∀ _ ∈ _, _))

variable {path name rest s : List Char} {comps base segments q : List (List Char)} {rooted : Bool}

theorem IsName.ne_nil (h : IsName s) : s ≠ [] := fun hs => h.1 (by simp [hs])

theorem IsName.ne_dot (h : IsName s) : s ≠ ['.'] := fun hs => h.1 (by simp [hs])

theorem IsName.ne_up (h : IsName s) : s ≠ ['.', '.'] := fun hs => h.1 (by simp [hs])

theorem Normal.append (h : Normal base) (hq : Normal q) : Normal (base ++ q) :=
  List.forall_mem_append.mpr ⟨h, hq⟩

theorem Normal.no_slash (h : Normal comps) : ∀ s ∈ comps, '/' ∉ s := fun s hs => (h s hs).2

@[simp] theorem render_singleton : render [s] = s := List.intercalate_singleton

theorem render_cons (h : q ≠ []) : render (s :: q) = s ++ '/' :: render q := by
  rw [render, List.intercalate_cons_of_ne_nil h, List.append_assoc, List.singleton_append, render]

theorem render_append (hb : base ≠ []) (hq : q ≠ []) :
    render (base ++ q) = render base ++ '/' :: render q := by
  induction base with
  | nil => exact absurd rfl hb
  | cons s base ih =>
    cases base with
    | nil => rw [List.singleton_append, render_cons hq, render_singleton]
    | cons t base =>
      rw [List.cons_append, render_cons (by simp), ih (by simp),
        render_cons (List.cons_ne_nil t base), List.append_assoc, List.cons_append]

theorem splitOn_render (h : Normal comps) (hne : comps ≠ []) :
    (render comps).splitOn '/' = comps :=
  List.splitOn_intercalate '/' h.no_slash hne

theorem not_mem_of_mem_splitOn (h : s ∈ path.splitOn '/') : '/' ∉ s := by
  induction path generalizing s with
  | nil =>
    obtain rfl : s = [] := by simpa using h
    exact List.not_mem_nil
  | cons c path ih =>
    rw [List.splitOn_cons_eq_if_modifyHead] at h
    split at h
    · rcases List.mem_cons.mp h with rfl | h
      · exact List.not_mem_nil
      · exact ih h
    · next hc =>
      obtain ⟨r, rs, hsplit⟩ := List.exists_cons_of_ne_nil (List.splitOn_ne_nil '/' path)
      rw [hsplit, List.modifyHead_cons] at h
      rcases List.mem_cons.mp h with rfl | h
      · have hr := ih (s := r) (by simp [hsplit])
        simp only [beq_iff_eq] at hc
        simp [hr, Ne.symm hc]
      · exact ih (by simp [hsplit, h])

theorem head?_render (h : Normal comps) : (render comps).head? ≠ some '/' := by
  cases comps with
  | nil => simp [render]
  | cons s comps =>
    obtain ⟨c, s', rfl⟩ := List.exists_cons_of_ne_nil (h s (by simp)).ne_nil
    have hc : c ≠ '/' := fun hc => (h _ List.mem_cons_self).2 (by simp [hc])
    cases comps with
    | nil => simpa using hc
    | cons t comps =>
      rw [render_cons (by simp)]
      simpa using hc

theorem render_ne_nil (h : Normal comps) (hne : comps ≠ []) : render comps ≠ [] := by
  intro hnil
  have hsplit := splitOn_render h hne
  rw [hnil, List.splitOn_nil] at hsplit
  subst hsplit
  exact (h [] (by simp)).ne_nil rfl

theorem getLast?_render (h : Normal comps) (hne : comps ≠ []) :
    ('/' :: render comps).getLast? ≠ some '/' := by
  obtain ⟨init, s, rfl⟩ := (List.eq_nil_or_concat' comps).resolve_left hne
  have hs := h s (by simp)
  have hlast : ('/' :: render (init ++ [s])).getLast? = s.getLast? := by
    cases init with
    | nil => rw [List.nil_append, render_singleton, ← List.singleton_append,
        List.getLast?_append_of_ne_nil _ hs.ne_nil]
    | cons t init =>
      rw [render_append (by simp) (by simp), render_singleton, ← List.cons_append,
        List.append_cons, List.getLast?_append_of_ne_nil _ hs.ne_nil]
  rw [hlast]
  exact fun hslash => hs.2 (List.mem_of_getLast? hslash)

theorem push_name (h : IsName s) : push rooted comps s = comps ++ [s] := by
  rw [push, if_neg (not_or.mpr ⟨h.ne_nil, h.ne_dot⟩), if_pos (.inl h.ne_up)]

theorem Normal.push (h : Normal comps) (hs : '/' ∉ s) : Normal (push true comps s) := by
  unfold Posix.push
  split
  · exact h
  · next hskip =>
    split
    · next hkeep =>
      refine h.append (List.forall_mem_singleton.mpr ⟨?_, hs⟩)
      rcases hkeep with hup | hroot | hlast
      · simp only [List.mem_cons, List.not_mem_nil, or_false, not_or] at hskip ⊢
        exact ⟨hskip.1, hskip.2, hup⟩
      · cases hroot.1
      · exact absurd rfl (h _ (List.mem_of_getLast? hlast)).ne_up
    · exact fun t ht => h t (List.dropLast_subset comps ht)

/-- What `normpath` leaves of an absolute path are names. -/
theorem normal_resolve (path : List Char) : Normal (resolve true (path.splitOn '/')) := by
  have hfold : ∀ segments comps : List (List Char), (∀ s ∈ segments, '/' ∉ s) → Normal comps →
      Normal (segments.foldl (Posix.push true) comps) := by
    intro segments
    induction segments with
    | nil => exact fun _ _ h => h
    | cons s segments ih =>
      intro comps hsegments h
      obtain ⟨hs, hsegments⟩ := List.forall_mem_cons.mp hsegments
      exact ih _ hsegments (h.push hs)
  exact hfold _ [] (fun s hs => not_mem_of_mem_splitOn hs) nofun

/-- Without `..` a segment is kept or left out. -/
theorem foldl_push (h : ['.', '.'] ∉ segments) :
    segments.foldl (push rooted) comps =
      comps ++ segments.filter fun s => s ≠ [] ∧ s ≠ ['.'] := by
  induction segments generalizing comps with
  | nil => simp
  | cons s segments ih =>
    obtain ⟨hs, hrest⟩ := not_or.mp (mt List.mem_cons.mpr h)
    rw [List.foldl_cons, ih hrest, push, List.filter_cons]
    by_cases hskip : s = [] ∨ s = ['.']
    · rcases hskip with rfl | rfl <;> simp
    · obtain ⟨hempty, hdot⟩ := not_or.mp hskip
      simp [hempty, hdot, Ne.symm hs]

theorem Normal.filter (h : Normal comps) :
    (comps.filter fun s => s ≠ [] ∧ s ≠ ['.']) = comps :=
  List.filter_eq_self.mpr fun s hs => decide_eq_true ⟨(h s hs).ne_nil, (h s hs).ne_dot⟩

theorem Normal.no_up (h : Normal comps) : ['.', '.'] ∉ comps := fun hs => (h _ hs).ne_up rfl

theorem normpath_absolute (h : path.head? = some '/') :
    ∃ k, (k = 1 ∨ k = 2) ∧
      normpath path = List.replicate k '/' ++ render (resolve true (path.splitOn '/')) := by
  have hk : leadingSlashes path = 1 ∨ leadingSlashes path = 2 := by
    unfold leadingSlashes
    rw [if_neg (not_not.mpr h)]
    split
    · exact .inr rfl
    · exact .inl rfl
  refine ⟨leadingSlashes path, hk, ?_⟩
  have hpath : path ≠ [] := by
    rintro rfl
    cases h
  have hne : leadingSlashes path ≠ 0 := by omega
  simp only [normpath, hpath, hne, ne_eq, not_false_eq_true, decide_true, if_false,
    List.append_eq_nil_iff, List.replicate_eq_nil_iff, false_and]

theorem normpath_cons (h : path.head? ≠ some '/') :
    normpath ('/' :: path) = '/' :: render (resolve true (path.splitOn '/')) := by
  have hone : leadingSlashes ('/' :: path) = 1 := by
    have hpre : ¬['/', '/'] <+: '/' :: path := by
      rw [List.cons_prefix_cons]
      rintro ⟨-, rest, rfl⟩
      exact h rfl
    simp [leadingSlashes, hpre]
  have hsplit : ('/' :: path).splitOn '/' = [] :: path.splitOn '/' := by
    simp [List.splitOn_cons_eq_if_modifyHead]
  simp [normpath, hone, hsplit, resolve, push]

theorem normpath_render (h : Normal comps) :
    normpath ('/' :: render comps) = '/' :: render comps := by
  rw [normpath_cons (head?_render h)]
  cases comps with
  | nil => rfl
  | cons s comps =>
    rw [splitOn_render h (by simp), resolve, foldl_push h.no_up, List.nil_append, h.filter]

/-- A normalized path that begins with a directory and a slash continues with names. -/
theorem normal_of_prefix (h : path.head? = some '/') (hbase : Normal base) (hne : base ≠ [])
    (hstart : '/' :: render base ++ ['/'] <+: normpath path) :
    ∃ q, Normal q ∧ normpath path = '/' :: render (base ++ q) := by
  obtain ⟨k, hk, hpath⟩ := normpath_absolute h
  obtain ⟨rest, hrest⟩ := hstart
  have hnormal := normal_resolve path
  generalize resolve true (path.splitOn '/') = comps at hpath hnormal
  rw [hpath] at hrest ⊢
  rcases hk with rfl | rfl
  · have htext : render base ++ '/' :: rest = render comps := by simpa using hrest
    have hcomps : comps ≠ [] := by
      rintro rfl
      simp [render] at htext
    have hsplit : base ++ rest.splitOn '/' = comps := by
      rw [← splitOn_render hnormal hcomps, ← htext, List.splitOn_append_cons_self,
        splitOn_render hbase hne]
    exact ⟨rest.splitOn '/', fun s hs => hnormal s (hsplit ▸ List.mem_append_right base hs),
      by rw [hsplit]; rfl⟩
  · have htext : render base ++ '/' :: rest = '/' :: render comps := by
      simpa [List.replicate_succ] using hrest
    have hhead := congrArg List.head? htext
    rw [List.head?_append_of_ne_nil _ (render_ne_nil hbase hne)] at hhead
    exact absurd hhead (head?_render hbase)

/-- A relative name without `..`, under a directory. -/
theorem normpath_join (hbase : Normal base) (hne : base ≠ []) (hrel : name.head? ≠ some '/')
    (hup : ['.', '.'] ∉ name.splitOn '/') :
    normpath (join ('/' :: render base) name) =
      '/' :: render (base ++ (name.splitOn '/').filter fun s => s ≠ [] ∧ s ≠ ['.']) := by
  have hjoin : join ('/' :: render base) name = '/' :: (render base ++ '/' :: name) := by
    rw [join, if_neg hrel, if_neg (not_or.mpr ⟨by simp, getLast?_render hbase hne⟩),
      List.cons_append]
  have hhead : (render base ++ '/' :: name).head? ≠ some '/' := by
    rw [List.head?_append_of_ne_nil _ (render_ne_nil hbase hne)]
    exact head?_render hbase
  rw [hjoin, normpath_cons hhead, List.splitOn_append_cons_self, splitOn_render hbase hne, resolve,
    List.foldl_append, foldl_push hbase.no_up, List.nil_append, hbase.filter, foldl_push hup]

theorem rdropWhile_slash (h : '/' ∉ s) :
    (path ++ '/' :: s).rdropWhile (· ≠ '/') = path ++ ['/'] := by
  have hs : ∀ c ∈ s.reverse, decide (c ≠ '/') = true := by
    intro c hc
    simp only [decide_eq_true_eq]
    rintro rfl
    exact h (List.mem_reverse.mp hc)
  rw [List.rdropWhile, List.reverse_append, List.reverse_cons, List.append_assoc,
    List.dropWhile_append_of_pos hs]
  simp

theorem dirname_render (h : Normal comps) (hs : IsName s) :
    dirname ('/' :: render (comps ++ [s])) = '/' :: render comps := by
  by_cases hne : comps = []
  · subst hne
    have hhead : ([] ++ '/' :: s).rdropWhile (· ≠ '/') = [] ++ ['/'] := rdropWhile_slash hs.2
    rw [List.nil_append, List.nil_append] at hhead
    rw [List.nil_append, render_singleton, dirname, hhead, if_pos (by simp)]
    rfl
  · have htext : '/' :: render (comps ++ [s]) = '/' :: render comps ++ '/' :: s := by
      rw [render_append hne (by simp), render_singleton, List.cons_append]
    have hall : ¬('/' :: render comps ++ ['/']).all (· = '/') := by
      obtain ⟨c, text, htext⟩ := List.exists_cons_of_ne_nil (render_ne_nil h hne)
      have hc := head?_render h
      rw [htext] at hc ⊢
      simp only [List.head?_cons, ne_eq, Option.some.injEq] at hc
      simp [hc]
    rw [dirname, htext, rdropWhile_slash hs.2, if_neg hall,
      List.rdropWhile_concat_pos _ _ _ (by simp), List.rdropWhile_eq_self_iff]
    intro hnil hlast
    refine getLast?_render h hne ?_
    rw [List.getLast?_eq_some_getLast hnil]
    exact congrArg some (of_decide_eq_true hlast)

theorem commonPrefix_append (base q : List (List Char)) :
    commonPrefix base (base ++ q) = base.length := by
  induction base with
  | nil => rfl
  | cons s base ih => simp [commonPrefix, ih]

theorem foldl_join (h : Normal (s :: q)) : q.foldl join s = render (s :: q) := by
  induction q using List.reverseRecOn with
  | nil => rw [List.foldl_nil, render_singleton]
  | append_singleton q t ih =>
    have ht := h t (by simp)
    have hq : Normal (s :: q) := fun u hu => h u (by
      rcases List.mem_cons.mp hu with rfl | hu <;> simp [*])
    have hhead : t.head? ≠ some '/' := fun hslash => ht.2 (List.mem_of_head? hslash)
    have hlast := getLast?_render hq (List.cons_ne_nil s q)
    have hne := render_ne_nil hq (List.cons_ne_nil s q)
    rw [List.getLast?_cons_of_ne_nil hne] at hlast
    rw [List.foldl_concat, ih hq, join, if_neg hhead, if_neg (not_or.mpr ⟨hne, hlast⟩),
      ← List.cons_append, render_append (List.cons_ne_nil s q) (by simp), render_singleton]

theorem segments_abspath {cwd : List Char} (h : Normal comps) :
    ((abspath cwd ('/' :: render comps)).splitOn '/').filter (· ≠ []) = comps := by
  have hsplit : ('/' :: render comps).splitOn '/' = [] :: (render comps).splitOn '/' := by
    simp [List.splitOn_cons_eq_if_modifyHead]
  rw [abspath, join, if_pos List.head?_cons, normpath_render h, hsplit]
  by_cases hne : comps = []
  · subst hne
    simp [render]
  · rw [splitOn_render h hne, List.filter_cons, if_neg (by simp)]
    exact List.filter_eq_self.mpr fun s hs => decide_eq_true (h s hs).ne_nil

theorem relpath_render {cwd : List Char} (hbase : Normal base) (hq : Normal q) (hne : q ≠ []) :
    relpath cwd ('/' :: render (base ++ q)) ('/' :: render base) = render q := by
  obtain ⟨s, q, rfl⟩ := List.exists_cons_of_ne_nil hne
  simp only [relpath, segments_abspath hbase, segments_abspath (hbase.append hq),
    commonPrefix_append, Nat.sub_self, List.replicate_zero, List.nil_append, List.drop_left]
  exact foldl_join hq

theorem clean_render (h : Normal comps) (hne : comps ≠ []) :
    clean (render comps) = render comps := by
  have hnil := render_ne_nil h hne
  simp only [clean, if_neg hnil, head?_render h, decide_false, if_false, List.nil_append,
    splitOn_render h hne, resolve, foldl_push h.no_up, h.filter]

/-- `clean` resolves an absolute path below its root. -/
theorem clean_cons (path : List Char) :
    clean ('/' :: path) = '/' :: render (resolve true (path.splitOn '/')) := by
  have hsplit : ('/' :: path).splitOn '/' = [] :: path.splitOn '/' := by
    simp [List.splitOn_cons_eq_if_modifyHead]
  simp [clean, hsplit, resolve, push]

theorem clean_render_slash (h : Normal comps) (hne : comps ≠ []) :
    clean (render comps ++ ['/']) = render comps := by
  have hsplit : (render comps ++ ['/']).splitOn '/' = comps ++ [[]] := by
    rw [List.splitOn_append_cons_self, splitOn_render h hne, List.splitOn_nil]
  have hhead : (render comps ++ ['/']).head? ≠ some '/' := by
    rw [List.head?_append_of_ne_nil _ (render_ne_nil h hne)]
    exact head?_render h
  have hup : ['.', '.'] ∉ comps ++ [[]] := by
    rw [List.mem_append, not_or]
    exact ⟨h.no_up, by simp⟩
  have hfilter : ((comps ++ [[]]).filter fun s => s ≠ [] ∧ s ≠ ['.']) = comps := by
    rw [List.filter_append, h.filter]
    simp
  simp only [clean, List.append_eq_nil_iff, List.cons_ne_nil, and_false, if_false, hhead,
    decide_false, List.nil_append, hsplit, resolve, foldl_push hup, hfilter,
    if_neg (render_ne_nil h hne)]

theorem dir_render (h : Normal comps) (hs : IsName s) :
    dir (render (comps ++ [s])) = if comps = [] then ['.'] else render comps := by
  by_cases hne : comps = []
  · subst hne
    have hdrop : s.rdropWhile (· ≠ '/') = [] := by
      rw [List.rdropWhile_eq_nil_iff]
      intro c hc
      exact decide_eq_true fun hslash => hs.2 (hslash ▸ hc)
    rw [List.nil_append, render_singleton, dir, hdrop, if_pos rfl]
    rfl
  · rw [if_neg hne, render_append hne (by simp), render_singleton, dir, rdropWhile_slash hs.2,
      clean_render_slash h hne]

theorem render_inj {comps' : List (List Char)} (h : Normal comps) (h' : Normal comps')
    (hne : comps ≠ []) (hne' : comps' ≠ []) (heq : render comps = render comps') :
    comps = comps' := by
  rw [← splitOn_render h hne, ← splitOn_render h' hne', heq]

theorem rtakeWhile_slash (h : '/' ∉ s) : (path ++ '/' :: s).rtakeWhile (· ≠ '/') = s := by
  induction s using List.reverseRecOn with
  | nil => rw [List.rtakeWhile_concat_neg _ _ _ (by simp)]
  | append_singleton s c ih =>
    have hc : c ≠ '/' := fun hc => h (by simp [hc])
    rw [← List.cons_append, ← List.append_assoc, List.rtakeWhile_concat_pos _ _ _ (by simpa),
      ih fun hs => h (by simp [hs])]

theorem base_render (h : Normal comps) (hs : IsName s) :
    Posix.base (render (comps ++ [s])) = s := by
  have hne : comps ++ [s] ≠ [] := by simp
  have hall : Normal (comps ++ [s]) := h.append (List.forall_mem_singleton.mpr hs)
  have hnil := render_ne_nil hall hne
  have hlast := getLast?_render hall hne
  rw [List.getLast?_cons_of_ne_nil hnil] at hlast
  have hdrop : (render (comps ++ [s])).rdropWhile (· = '/') = render (comps ++ [s]) := by
    rw [List.rdropWhile_eq_self_iff]
    intro hl hslash
    rw [List.getLast?_eq_some_getLast hl] at hlast
    exact hlast (congrArg some (of_decide_eq_true hslash))
  simp only [Posix.base, if_neg hnil, hdrop]
  by_cases hcomps : comps = []
  · subst hcomps
    rw [List.nil_append, render_singleton, List.rtakeWhile_eq_self_iff]
    intro c hc
    exact decide_eq_true fun hslash => hs.2 (hslash ▸ hc)
  · rw [render_append hcomps (by simp), render_singleton, rtakeWhile_slash hs.2]

theorem splitOn_slashes (h : '/' ∉ s) (k : ℕ) :
    (s ++ List.replicate k '/').splitOn '/' = s :: List.replicate k [] := by
  have hsplit : s.splitOn '/' = [s] := by
    have hs : (['/'].intercalate [s]).splitOn '/' = [s] :=
      List.splitOn_intercalate '/' (by simpa using h) (by simp)
    rwa [List.intercalate_singleton] at hs
  induction k generalizing s with
  | zero => rw [List.replicate_zero, List.append_nil, hsplit, List.replicate_zero]
  | succ k ih =>
    have hrest := ih (s := []) List.not_mem_nil (List.splitOn_nil '/')
    rw [List.nil_append] at hrest
    rw [List.replicate_succ, List.splitOn_append_cons_self, hsplit, hrest, List.singleton_append,
      List.replicate_succ]

theorem exists_splitOn_base (h : IsName (Posix.base path)) :
    ∃ u k, path.splitOn '/' = u ++ Posix.base path :: List.replicate k [] := by
  have hne : path ≠ [] := by
    rintro rfl
    exact h.ne_dot rfl
  generalize hw : path.rdropWhile (· = '/') = w
  have hslashes : path.rtakeWhile (· = '/') =
      List.replicate (path.rtakeWhile (· = '/')).length '/' :=
    List.eq_replicate_iff.mpr ⟨rfl, fun c hc => by simpa using List.mem_rtakeWhile_imp hc⟩
  have hpath : path = w ++ List.replicate (path.rtakeWhile (· = '/')).length '/' := by
    rw [← hslashes, ← hw, List.rdropWhile_append_rtakeWhile]
  have hbase : Posix.base path = w.rtakeWhile (· ≠ '/') := by
    simp only [Posix.base, if_neg hne, hw]
    split
    · next hnil =>
      subst hnil
      simp only [Posix.base, if_neg hne, hw, if_true] at h
      exact absurd (List.mem_singleton_self '/') h.2
    · rfl
  rw [hbase] at h ⊢
  generalize (path.rtakeWhile (· = '/')).length = k at hpath
  have hsplit := List.rdropWhile_append_rtakeWhile (p := (· ≠ '/')) (l := w)
  rcases List.eq_nil_or_concat' (w.rdropWhile (· ≠ '/')) with hnil | ⟨init, c, hinit⟩
  · rw [hnil, List.nil_append] at hsplit
    refine ⟨[], k, ?_⟩
    rw [hpath, hsplit, splitOn_slashes (hsplit ▸ h.2), List.nil_append]
  · have hc : c = '/' := by
      have hlast := List.rdropWhile_last_not (p := (· ≠ '/')) (l := w) (by rw [hinit]; simp)
      simp only [hinit, List.getLast_concat, ne_eq, decide_eq_true_eq, not_not] at hlast
      exact hlast
    subst hc
    refine ⟨init.splitOn '/', k, ?_⟩
    conv_lhs => rw [hpath, ← hsplit, hinit]
    rw [List.append_assoc, List.append_assoc, List.singleton_append,
      List.splitOn_append_cons_self, splitOn_slashes h.2]

example : normpath "/tmp/work/./a//../b".toList = "/tmp/work/b".toList := by decide

end Posix
