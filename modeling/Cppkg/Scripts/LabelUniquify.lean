import Cppkg.Lib.Renames
import Cppkg.Lib.While
import Mathlib.Data.List.DropRight
import Mathlib.Data.List.Perm.Subperm
import Mathlib.Order.Bounds.Basic

/-!
# Making the labels of files unique

`label_uniquify.py` gives the files it is told of distinct basenames, and renames them within
their directories. A file keeps its basename if no file before it has it; otherwise the first of
the numbered names `prefix0.affix`, `prefix1.affix`, ... that no file before it has is its new one.

The file system is a map from locations to contents: a location is a directory, as the system
resolves it (`resolve`), and a basename in it. The loop of renames at the end goes through the
dictionary in the order of its insertions.

`GreedyNames` says what the new names are, without the loop that finds them. They are distinct,
and no name is the basename of a file before it; the renames therefore follow the rule of
`Renames`. What can go wrong is the other order: a name is invented before the file is read that
has had it all along.
-/

namespace Cppkg.Scripts

open Renames

/-- A basename. -/
abbrev Name := List Char

/-- A path. -/
abbrev Path := List Char

/-! ### Paths -/

/-- `os.path.basename`: what is behind the last slash. -/
def basename (p : Path) : Name := p.rtakeWhile (· ≠ '/')

/-- `os.path.dirname`: what is in front of the last slash, without the slashes at its end unless
there is nothing else. -/
def dirname (p : Path) : Path :=
  let head := p.rdropWhile (· ≠ '/')
  if head ≠ [] ∧ head ≠ List.replicate head.length '/' then head.rdropWhile (· = '/') else head

/-- `os.path.join`. -/
def joinPath (a b : Path) : Path :=
  if b.head? = some '/' then b
  else if a = [] ∨ a.getLast? = some '/' then a ++ b
  else a ++ '/' :: b

/-! ### Names -/

/-- The number `i` between the parts of a name: `prefix + str(i) + affix`. -/
def numbered (filename : Name) (i : ℕ) : Name :=
  let fileparts := filename.splitOn '.'
  fileparts.headD [] ++ Nat.toDigits 10 i ++ '.' :: List.intercalate ['.'] fileparts.tail

/-- `file2path`: a dictionary in the order of its insertions. -/
abbrev File2Path := List (Name × Path)

/-- The loop `while nxfile in file2path: nxfile = prefix + str(i) + affix; i += 1`. It tests the
name itself and then numbered names, of which one more than the dictionary holds is enough. -/
def freshName (file2path : File2Path) (filename : Name) : Option Name :=
  (While.run (fun s : Name × ℕ ↦ decide (s.1 ∈ file2path.map Prod.fst))
    (fun s ↦ (numbered filename s.2, s.2 + 1)) (file2path.length + 2) (filename, 0)).map Prod.fst

/-- One iteration of the loop over the paths. -/
def addPath (file2path : File2Path) (path : Path) : Option File2Path :=
  let filename := basename path
  if filename ∈ file2path.map Prod.fst then
    (freshName file2path filename).map fun nxfile ↦ file2path ++ [(nxfile, path)]
  else some (file2path ++ [(filename, path)])

/-- The loop over the paths. -/
def file2path (paths : List Path) : Option File2Path := paths.foldlM addPath []

/-- `nxpath`: the new path of an entry. -/
def nxpath (e : Name × Path) : Path := joinPath (dirname e.2) e.1

/-- `conversions`: the entries whose path changes. -/
def conversions (d : File2Path) : List (Path × Path) :=
  d.filterMap fun e ↦ if e.2 ≠ nxpath e then some (e.2, nxpath e) else none

section FileSystem

variable {δ γ : Type} (resolve : Path → δ)

/-- Where a path leads. -/
def location (p : Path) : δ × Name := (resolve (dirname p), basename p)

/-- Where the old and the new paths lead. -/
def locations (cs : List (Path × Path)) : List ((δ × Name) × (δ × Name)) :=
  cs.map fun c ↦ (location resolve c.1, location resolve c.2)

variable [DecidableEq δ]

/-- The loop of `os.rename`. Renaming a file to its own location changes nothing, and renaming a
file that is not there raises an exception. -/
def renameAll (fs : δ × Name → Option γ) (cs : List (Path × Path)) : Option (δ × Name → Option γ) :=
  moves fs (locations resolve cs)

/-- No rename replaces a file. -/
def ReplacesNone (fs : δ × Name → Option γ) (cs : List (Path × Path)) : Prop :=
  NeverReplaces fs (locations resolve cs)

/-- The new basenames are distinct, no rename replaces a file, and afterwards the contents of every
path are at its new path. -/
def RenamesWithoutLoss (fs : δ × Name → Option γ) (paths : List Path) : Prop :=
  ∃ d, file2path paths = some d ∧ d.map Prod.snd = paths ∧ (d.map Prod.fst).Nodup ∧
    ReplacesNone resolve fs (conversions d) ∧
    ∃ fs', renameAll resolve fs (conversions d) = some fs' ∧
      ∀ e ∈ d, fs' (location resolve (nxpath e)) = fs (location resolve e.2)

end FileSystem

/-- The names that the paths get, one after the other: the basename if it is not taken, or else the
first numbered name that is not. -/
inductive GreedyNames : List Path → List Name → Prop
  | nil : GreedyNames [] []
  | own {paths : List Path} {names : List Name} {path : Path} (h : GreedyNames paths names)
      (hnew : basename path ∉ names) : GreedyNames (paths ++ [path]) (names ++ [basename path])
  | number {paths : List Path} {names : List Name} {path : Path} {k : ℕ}
      (h : GreedyNames paths names) (htaken : basename path ∈ names)
      (hk : IsLeast {k | numbered (basename path) k ∉ names} k) :
      GreedyNames (paths ++ [path]) (names ++ [numbered (basename path) k])

/-- No path that gets another basename finds a file of that name in its directory. -/
def TargetsFree {δ γ : Type} (resolve : Path → δ) (fs : δ × Name → Option γ)
    (paths : List Path) : Prop :=
  ∀ names, GreedyNames paths names →
    ∀ e ∈ names.zip paths, e.1 = basename e.2 ∨ fs (resolve (dirname e.2), e.1) = none

/-! ### Paths taken apart and put together -/

theorem slash_notMem_basename (p : Path) : '/' ∉ basename p := fun h ↦ by
  simpa using List.mem_rtakeWhile_imp h

/-- What is in front of a name without slashes is the part up to the last slash. -/
theorem split_append {a : Path} {n : Name} (ha : a = [] ∨ a.getLast? = some '/')
    (hn : '/' ∉ n) : (a ++ n).rdropWhile (· ≠ '/') = a ∧ basename (a ++ n) = n := by
  induction n using List.reverseRecOn with
  | nil =>
    have hlast : ∀ h : a ≠ [], a.getLast h = '/' := fun h ↦ by
      rw [List.getLast?_eq_some_getLast h] at ha
      exact Option.some.inj (ha.resolve_left h)
    rw [List.append_nil, basename, List.rdropWhile_eq_self_iff, List.rtakeWhile_eq_nil_iff]
    constructor <;>
    · intro h
      simp [hlast h]
  | append_singleton n c ih =>
    rw [List.mem_append, not_or, List.mem_singleton] at hn
    obtain ⟨hdrop, htake⟩ := ih hn.1
    have hc : (fun x : Char ↦ decide (x ≠ '/')) c = true := decide_eq_true (Ne.symm hn.2)
    rw [basename] at htake ⊢
    rw [← List.append_assoc, List.rdropWhile_concat_pos _ _ c hc,
      List.rtakeWhile_concat_pos _ _ c hc, hdrop, htake]
    exact ⟨rfl, rfl⟩

/-- A directory is made of slashes only, or does not end in one. -/
theorem dirname_cases (p : Path) :
    dirname p = List.replicate (dirname p).length '/' ∨ (dirname p).getLast? ≠ some '/' := by
  rw [dirname]
  split
  · refine .inr fun h ↦ ?_
    have hne : (List.rdropWhile (· = '/') (p.rdropWhile (· ≠ '/'))) ≠ [] := fun hnil ↦ by
      rw [hnil] at h
      cases h
    have hlast := List.rdropWhile_last_not _ _ hne
    rw [List.getLast?_eq_some_getLast hne] at h
    exact hlast (decide_eq_true (Option.some.inj h))
  next h =>
    by_cases hnil : p.rdropWhile (· ≠ '/') = []
    · exact .inl (by rw [hnil]; rfl)
    · exact .inl (not_not.1 fun hne ↦ h ⟨hnil, hne⟩)

/-- Joining a directory and a name without slashes gives a path with these parts. -/
theorem dirname_joinPath (p : Path) {n : Name} (hn : '/' ∉ n) :
    dirname (joinPath (dirname p) n) = dirname p ∧ basename (joinPath (dirname p) n) = n := by
  have hhead : n.head? ≠ some '/' := fun h ↦ hn (List.mem_of_head? h)
  rw [joinPath, if_neg hhead]
  by_cases hend : dirname p = [] ∨ (dirname p).getLast? = some '/'
  · obtain ⟨hdrop, htake⟩ := split_append hend hn
    have hslashes : dirname p = List.replicate (dirname p).length '/' := by
      rcases hend with hnil | hlast
      · rw [hnil]
        rfl
      · exact (dirname_cases p).resolve_right fun h ↦ h hlast
    rw [if_pos hend]
    refine ⟨?_, htake⟩
    generalize dirname p = d at hdrop hslashes
    rw [dirname, hdrop, if_neg fun h ↦ h.2 hslashes]
  · rw [if_neg hend, ← List.singleton_append, ← List.append_assoc]
    obtain ⟨hne, hlast⟩ := not_or.1 hend
    obtain ⟨hdrop, htake⟩ := split_append (a := dirname p ++ ['/']) (.inr (by simp)) hn
    refine ⟨?_, htake⟩
    generalize dirname p = d at hne hlast hdrop
    -- what is in front of the last slash is not made of slashes
    have hmixed : d ++ ['/'] ≠ List.replicate (d ++ ['/']).length '/' := by
      intro h
      refine hlast ?_
      rw [List.getLast?_eq_some_getLast hne]
      have hmem : d.getLast hne ∈ List.replicate (d ++ ['/']).length '/' :=
        h ▸ List.mem_append_left _ (List.getLast_mem hne)
      rw [(List.mem_replicate.1 hmem).2]
    rw [dirname, hdrop, if_pos ⟨by simp, hmixed⟩,
      List.rdropWhile_concat_pos _ _ '/' (decide_eq_true rfl), List.rdropWhile_eq_self_iff]
    intro h hslash
    rw [List.getLast?_eq_some_getLast h] at hlast
    exact hlast (congrArg some (of_decide_eq_true hslash))

/-! ### Numbered names -/

theorem toDigits_injective {i j : ℕ} (h : Nat.toDigits 10 i = Nat.toDigits 10 j) : i = j := by
  rw [← Nat.ofDigitChars_ten_toDigits (n := i), h, Nat.ofDigitChars_ten_toDigits]

theorem numbered_injective {n : Name} {i j : ℕ} (h : numbered n i = numbered n j) : i = j := by
  rw [numbered, numbered, List.append_left_inj, List.append_right_inj] at h
  exact toDigits_injective h

theorem slash_notMem_numbered {n : Name} (hn : '/' ∉ n) (i : ℕ) : '/' ∉ numbered n i := by
  have hdigits : '/' ∉ Nat.toDigits 10 i := fun h ↦
    absurd (Nat.isDigit_of_mem_toDigits (by decide) (by decide) h) (by decide)
  -- the parts come from the name
  have hparts : List.intercalate ['.'] (n.splitOn '.') = n := List.intercalate_splitOn '.'
  rw [numbered]
  generalize n.splitOn '.' = fileparts at hparts
  subst hparts
  cases fileparts with
  | nil => simp [hdigits]
  | cons part rest =>
    cases rest with
    | nil => simpa [hdigits] using hn
    | cons part' rest =>
      rw [List.intercalate_cons_cons] at hn
      simp_all

/-- One of the first numbered names is free. -/
theorem exists_numbered_notMem (names : List Name) (n : Name) :
    ∃ k ≤ names.length, numbered n k ∉ names := by
  by_contra hall
  push Not at hall
  have hnodup : ((List.range (names.length + 1)).map (numbered n)).Nodup :=
    List.nodup_range.map fun _ _ h ↦ numbered_injective h
  have hsub : (List.range (names.length + 1)).map (numbered n) ⊆ names := by
    intro a ha
    obtain ⟨k, hk, rfl⟩ := List.mem_map.1 ha
    exact hall k (Nat.le_of_lt_succ (List.mem_range.1 hk))
  have hle := (hnodup.subperm hsub).length_le
  rw [List.length_map, List.length_range] at hle
  omega

/-- **The loop over the numbered names.** It ends, with the first of them that is free. -/
theorem freshName_spec {d : File2Path} {n : Name} (htaken : n ∈ d.map Prod.fst) :
    ∃ k, freshName d n = some (numbered n k) ∧
      IsLeast {k | numbered n k ∉ d.map Prod.fst} k := by
  obtain ⟨K, hK, hfree⟩ := exists_numbered_notMem (d.map Prod.fst) n
  rw [List.length_map] at hK
  -- before the first test of a numbered name, or after tests of `k` of them
  let I : Name × ℕ → Prop := fun s ↦
    s = (n, 0) ∨ ∃ k ≤ K, s = (numbered n k, k + 1) ∧ ∀ j < k, numbered n j ∈ d.map Prod.fst
  have hstep : ∀ s, I s → decide (s.1 ∈ d.map Prod.fst) = true →
      I (numbered n s.2, s.2 + 1) ∧ K + 1 - (s.2 + 1) < K + 1 - s.2 := by
    rintro s (rfl | ⟨k, hk, rfl, hbefore⟩) hs
    · exact ⟨.inr ⟨0, Nat.zero_le K, rfl, by simp⟩, by omega⟩
    · have hmem := of_decide_eq_true hs
      have hne : k ≠ K := fun h ↦ hfree (h ▸ hmem)
      refine ⟨.inr ⟨k + 1, by omega, rfl, fun j hj ↦ ?_⟩, by omega⟩
      rcases Nat.lt_succ_iff_lt_or_eq.1 hj with hj | rfl
      · exact hbefore j hj
      · exact hmem
  have hend := While.isSome_run (I := I) (μ := fun s ↦ K + 1 - s.2) (n := d.length + 2)
    (s := (n, 0)) (.inl rfl) hstep (by dsimp only; omega)
  obtain ⟨s, hs⟩ := Option.isSome_iff_exists.1 hend
  obtain ⟨hI, hstop⟩ := While.run_invariant (I := I) (.inl rfl) (fun s hI hc ↦ (hstep s hI hc).1) hs
  have hnew : s.1 ∉ d.map Prod.fst := of_decide_eq_false hstop
  rcases hI with rfl | ⟨k, -, rfl, hbefore⟩
  · exact absurd htaken hnew
  · exact ⟨k, by rw [freshName, hs]; rfl, hnew, fun j hj ↦
      Nat.le_of_not_lt fun hlt ↦ hj (hbefore j hlt)⟩

/-! ### The new names -/

namespace GreedyNames

variable {paths : List Path} {names : List Name}

theorem length_eq (h : GreedyNames paths names) : names.length = paths.length := by
  induction h with
  | nil => rfl
  | own _ _ ih => simp [ih]
  | number _ _ _ ih => simp [ih]

theorem nodup (h : GreedyNames paths names) : names.Nodup := by
  induction h with
  | nil => exact List.nodup_nil
  | own _ hnew ih => exact List.concat_eq_append ▸ ih.concat hnew
  | number _ _ hk ih => exact List.concat_eq_append ▸ ih.concat hk.1

/-- The basename of every path is taken. -/
theorem basename_mem (h : GreedyNames paths names) : ∀ p ∈ paths, basename p ∈ names := by
  induction h with
  | nil => simp
  | own _ _ ih =>
    intro p hp
    rcases List.mem_append.1 hp with hp | hp
    · exact List.mem_append_left _ (ih p hp)
    · rw [List.mem_singleton.1 hp]
      exact List.mem_append_right _ List.mem_cons_self
  | number _ htaken _ ih =>
    intro p hp
    rcases List.mem_append.1 hp with hp | hp
    · exact List.mem_append_left _ (ih p hp)
    · rw [List.mem_singleton.1 hp]
      exact List.mem_append_left _ htaken

theorem slash_notMem (h : GreedyNames paths names) : ∀ n ∈ names, '/' ∉ n := by
  have hstep : ∀ {names : List Name} {n : Name}, (∀ n ∈ names, '/' ∉ n) → '/' ∉ n →
      ∀ m ∈ names ++ [n], '/' ∉ m := by
    intro names n hnames hn m hm
    rcases List.mem_append.1 hm with hm | hm
    · exact hnames m hm
    · rwa [List.mem_singleton.1 hm]
  induction h with
  | nil => simp
  | own _ _ ih => exact hstep ih (slash_notMem_basename _)
  | number _ _ _ ih => exact hstep ih (slash_notMem_numbered (slash_notMem_basename _) _)

/-- No name is the basename of a path before it. -/
theorem pairwise (h : GreedyNames paths names) :
    (names.zip paths).Pairwise fun e e' ↦ basename e.2 ≠ e'.1 := by
  have hstep : ∀ {paths : List Path} {names : List Name} {path : Path} {n : Name},
      GreedyNames paths names → n ∉ names →
      (names.zip paths).Pairwise (fun e e' ↦ basename e.2 ≠ e'.1) →
      ((names ++ [n]).zip (paths ++ [path])).Pairwise fun e e' ↦ basename e.2 ≠ e'.1 := by
    intro paths names path n h hn hpw
    rw [List.zip_append h.length_eq, List.zip_cons_cons, List.zip_nil_right,
      List.pairwise_append]
    refine ⟨hpw, List.pairwise_singleton _ _, fun e he e' he' heq ↦ hn ?_⟩
    obtain rfl := List.mem_singleton.1 he'
    have hmem := h.basename_mem e.2 (List.of_mem_zip he).2
    rwa [heq] at hmem
  induction h with
  | nil => exact List.Pairwise.nil
  | own h hnew ih => exact hstep h hnew ih
  | number h _ hk ih => exact hstep h hk.1 ih

/-- How the last path gets its name. -/
theorem of_concat {path : Path} (h : GreedyNames (paths ++ [path]) names) :
    ∃ names₀ n, names = names₀ ++ [n] ∧ GreedyNames paths names₀ ∧
      (basename path ∉ names₀ ∧ n = basename path ∨
        basename path ∈ names₀ ∧
          ∃ k, IsLeast {k | numbered (basename path) k ∉ names₀} k ∧
            n = numbered (basename path) k) := by
  generalize hpaths : paths ++ [path] = paths' at h
  cases h with
  | nil => simp at hpaths
  | @own _ names₀ _ h hnew =>
    obtain ⟨rfl, hpath⟩ := List.append_inj' hpaths rfl
    obtain rfl := List.singleton_inj.1 hpath
    exact ⟨names₀, _, rfl, h, .inl ⟨hnew, rfl⟩⟩
  | @number _ names₀ _ k h htaken hk =>
    obtain ⟨rfl, hpath⟩ := List.append_inj' hpaths rfl
    obtain rfl := List.singleton_inj.1 hpath
    exact ⟨names₀, _, rfl, h, .inr ⟨htaken, k, hk, rfl⟩⟩

/-- The names are determined by the paths. -/
theorem unique {names' : List Name} (h : GreedyNames paths names)
    (h' : GreedyNames paths names') : names = names' := by
  induction h generalizing names' with
  | nil => exact (List.eq_nil_of_length_eq_zero h'.length_eq).symm
  | own _ hnew ih =>
    obtain ⟨names₀, n, rfl, h₀, hcase⟩ := h'.of_concat
    obtain rfl := ih h₀
    rcases hcase with ⟨-, rfl⟩ | ⟨htaken, -⟩
    · rfl
    · exact absurd htaken hnew
  | number _ htaken hk ih =>
    obtain ⟨names₀, n, rfl, h₀, hcase⟩ := h'.of_concat
    obtain rfl := ih h₀
    rcases hcase with ⟨hnew, -⟩ | ⟨-, k', hk', rfl⟩
    · exact absurd htaken hnew
    · rw [hk.unique hk']

end GreedyNames

/-- **The loop over the paths.** It ends, with the names that are to be given. The induction is on
the paths, from the last. -/
theorem file2path_spec (paths : List Path) :
    ∃ d, file2path paths = some d ∧ d.map Prod.snd = paths ∧
      GreedyNames paths (d.map Prod.fst) := by
  induction paths using List.reverseRecOn with
  | nil => exact ⟨[], rfl, rfl, .nil⟩
  | append_singleton paths path ih =>
    obtain ⟨d, hd, hpaths, hnames⟩ := ih
    have hstep : file2path (paths ++ [path]) = addPath d path := by
      rw [file2path, List.foldlM_append, ← file2path, hd]
      simp
    rw [hstep, addPath]
    by_cases htaken : basename path ∈ d.map Prod.fst
    · obtain ⟨k, hfresh, hk⟩ := freshName_spec htaken
      refine ⟨d ++ [(numbered (basename path) k, path)], ?_, by simp [hpaths], ?_⟩
      · rw [if_pos htaken, hfresh]
        rfl
      · rw [List.map_append]
        exact hnames.number htaken hk
    · refine ⟨d ++ [(basename path, path)], if_neg htaken, by simp [hpaths], ?_⟩
      rw [List.map_append]
      exact hnames.own htaken

/-! ### The renames -/

theorem zip_entries (d : File2Path) : (d.map Prod.fst).zip (d.map Prod.snd) = d := by
  rw [List.zip_map', List.map_id']

theorem conversions_cons (e : Name × Path) (d : File2Path) :
    conversions (e :: d) =
      if e.2 = nxpath e then conversions d else (e.2, nxpath e) :: conversions d := by
  split
  next h => exact List.filterMap_cons_none (if_neg (not_not.2 h))
  next h => exact List.filterMap_cons_some (if_pos h)

section FileSystem

variable {δ γ : Type} {resolve : Path → δ}

theorem location_nxpath {e : Name × Path} (hn : '/' ∉ e.1) :
    location resolve (nxpath e) = (resolve (dirname e.2), e.1) := by
  obtain ⟨hdir, hbase⟩ := dirname_joinPath e.2 hn
  rw [location, nxpath, hdir, hbase]

/-- The conversions leave out entries that stay where they are. -/
theorem skips_conversions (d : File2Path) :
    Skips (locations resolve (d.map fun e ↦ (e.2, nxpath e)))
      (locations resolve (conversions d)) := by
  induction d with
  | nil => exact .nil
  | cons e d ih =>
    rw [conversions_cons]
    split
    next h => exact .skip (congrArg (location resolve) h) ih
    next => exact .keep _ ih

theorem forall_mem_locations {d : File2Path} {P : (δ × Name) × (δ × Name) → Prop} :
    (∀ m ∈ locations resolve (d.map fun e ↦ (e.2, nxpath e)), P m) ↔
      ∀ e ∈ d, P (location resolve e.2, location resolve (nxpath e)) := by
  rw [locations, List.forall_mem_map, List.forall_mem_map]

variable {fs : δ × Name → Option γ} {paths : List Path} {d : File2Path}

theorem targetsFree_iff (hpaths : d.map Prod.snd = paths)
    (hnames : GreedyNames paths (d.map Prod.fst)) :
    TargetsFree resolve fs paths ↔
      ∀ e ∈ d, e.1 = basename e.2 ∨ fs (resolve (dirname e.2), e.1) = none := by
  have hzip : (d.map Prod.fst).zip paths = d := by rw [← hpaths, zip_entries]
  constructor
  · intro h e he
    exact h _ hnames e (hzip.symm ▸ he)
  · intro h names hnames' e he
    rw [hnames'.unique hnames, hzip] at he
    exact h e he

/-- The names are the last parts of the new locations, which are therefore distinct. -/
theorem nodup_locations (hnames : GreedyNames paths (d.map Prod.fst)) :
    ((locations resolve (d.map fun e ↦ (e.2, nxpath e))).map Prod.snd).Nodup := by
  have hmap : ((locations resolve (d.map fun e ↦ (e.2, nxpath e))).map Prod.snd).map Prod.snd =
      d.map Prod.fst := by
    rw [locations, List.map_map, List.map_map, List.map_map]
    refine List.map_congr_left fun e he ↦ congrArg Prod.snd (location_nxpath ?_)
    exact hnames.slash_notMem _ (List.mem_map_of_mem he)
  exact .of_map Prod.snd (hmap ▸ hnames.nodup)

/-- No file goes to where a file before it was. -/
theorem pairwise_locations (hpaths : d.map Prod.snd = paths)
    (hnames : GreedyNames paths (d.map Prod.fst)) :
    (locations resolve (d.map fun e ↦ (e.2, nxpath e))).Pairwise fun m m' ↦ m.1 ≠ m'.2 := by
  have hpw := hnames.pairwise
  rw [← hpaths, zip_entries] at hpw
  rw [locations, List.pairwise_map, List.pairwise_map]
  refine hpw.imp_of_mem fun _ he' hne heq ↦ hne ?_
  rw [location_nxpath (hnames.slash_notMem _ (List.mem_map_of_mem he'))] at heq
  exact congrArg Prod.snd heq

variable [DecidableEq δ]

/-- No loss, for the dictionary that is built. -/
theorem renamesWithoutLoss_iff_lossless (hd : file2path paths = some d)
    (hpaths : d.map Prod.snd = paths) (hnames : GreedyNames paths (d.map Prod.fst)) :
    RenamesWithoutLoss resolve fs paths ↔
      Lossless fs (locations resolve (d.map fun e ↦ (e.2, nxpath e)))
        (locations resolve (conversions d)) := by
  constructor
  · rintro ⟨d', hd', -, -, hnone, fs', hrun, harrive⟩
    obtain rfl := Option.some.inj (hd.symm.trans hd')
    exact ⟨fs', hrun, hnone, forall_mem_locations.2 harrive⟩
  · rintro ⟨fs', hrun, hnone, harrive⟩
    exact ⟨d, hd, hpaths, hnames.nodup, hnone, fs', hrun, forall_mem_locations.1 harrive⟩

/-- **Files are renamed without loss exactly when the new places are free.** Each path has to lead
to a file of its own, and no file, listed or not, may have been where a renamed one goes. -/
theorem renamesWithoutLoss_iff (hex : ∀ p ∈ paths, fs (location resolve p) ≠ none) :
    RenamesWithoutLoss resolve fs paths ↔
      (paths.map (location resolve)).Nodup ∧ TargetsFree resolve fs paths := by
  obtain ⟨d, hd, hpaths, hnames⟩ := file2path_spec paths
  have hocc : ∀ m ∈ locations resolve (d.map fun e ↦ (e.2, nxpath e)), fs m.1 ≠ none :=
    forall_mem_locations.2 fun e he ↦ hex e.2 (hpaths ▸ List.mem_map_of_mem he)
  have hsrc : (locations resolve (d.map fun e ↦ (e.2, nxpath e))).map Prod.fst =
      paths.map (location resolve) := by
    rw [locations, ← hpaths, List.map_map, List.map_map, List.map_map]
    rfl
  rw [renamesWithoutLoss_iff_lossless hd hpaths hnames, targetsFree_iff hpaths hnames,
    (skips_conversions d).lossless_iff (nodup_locations hnames) (pairwise_locations hpaths hnames)
      hocc, hsrc, forall_mem_locations]
  refine and_congr_right fun _ ↦ forall₂_congr fun e he ↦ ?_
  have hslash := hnames.slash_notMem _ (List.mem_map_of_mem he)
  rw [location_nxpath hslash, location, Prod.mk_right_inj, eq_comm]

end FileSystem

/-- Two files of one name, in two directories. -/
theorem renamesWithoutLoss_iff_two :
    RenamesWithoutLoss id
      (fun l ↦
        if l ∈ [("a".toList, "x.h".toList), ("b".toList, "x.h".toList)] then some l else none)
      ["a/x.h".toList, "b/x.h".toList] := by
  refine (renamesWithoutLoss_iff (by decide)).2 ⟨by decide, ?_⟩
  have hnames : GreedyNames ([] ++ ["a/x.h".toList] ++ ["b/x.h".toList])
      ([] ++ [basename "a/x.h".toList] ++ [numbered (basename "b/x.h".toList) 0]) :=
    (GreedyNames.nil.own (by decide)).number (by decide) ⟨by decide, fun _ _ ↦ Nat.zero_le _⟩
  intro names h
  obtain rfl := h.unique hnames
  decide

/-- The name that is invented for the second file is the one that the third file has in the same
directory. -/
theorem not_renamesWithoutLoss :
    ¬ ∀ (δ γ : Type) (_ : DecidableEq δ) (resolve : Path → δ) (fs : δ × Name → Option γ)
      (paths : List Path), (paths.map (location resolve)).Nodup →
        (∀ p ∈ paths, fs (location resolve p) ≠ none) → RenamesWithoutLoss resolve fs paths := by
  intro h
  obtain ⟨d, hd, -, -, hnone, -⟩ := h Path (Path × Name) inferInstance id
    (fun l ↦ if l ∈ [("a".toList, "x.h".toList), ("b".toList, "x.h".toList),
      ("b".toList, "x0.h".toList)] then some l else none)
    ["a/x.h".toList, "b/x.h".toList, "b/x0.h".toList] (by decide) (by decide)
  have hd' : file2path ["a/x.h".toList, "b/x.h".toList, "b/x0.h".toList] =
      some [("x.h".toList, "a/x.h".toList), ("x0.h".toList, "b/x.h".toList),
        ("x00.h".toList, "b/x0.h".toList)] := by decide
  obtain rfl := Option.some.inj (hd'.symm.trans hd)
  exact absurd hnone.1 (by decide)

/-! ### A second run -/

/-- Paths with distinct basenames keep them. -/
theorem GreedyNames.of_nodup {paths : List Path} (h : (paths.map basename).Nodup) :
    GreedyNames paths (paths.map basename) := by
  induction paths using List.reverseRecOn with
  | nil => exact .nil
  | append_singleton paths path ih =>
    rw [List.map_append, List.map_singleton] at h ⊢
    obtain ⟨hpaths, -, hnew⟩ := List.nodup_append.1 h
    exact (ih hpaths).own fun hmem ↦ hnew _ hmem _ List.mem_cons_self rfl

theorem conversions_eq_nil {d : File2Path} (h : ∀ e ∈ d, nxpath e = e.2) : conversions d = [] :=
  List.filterMap_eq_nil_iff.2 fun e he ↦ if_neg (not_not.2 (h e he).symm)

/-- **A second run has nothing to do**: the paths that the first one leaves, read in any order, get
the basenames they have and stay where they are. -/
theorem uniquify_idempotent (paths : List Path) : ∃ d, file2path paths = some d ∧
    ∀ again : List Path, again.Perm (d.map nxpath) → ∃ d', file2path again = some d' ∧
      d'.map Prod.snd = again ∧ d'.map Prod.fst = again.map basename ∧ conversions d' = [] := by
  obtain ⟨d, hd, -, hnames⟩ := file2path_spec paths
  refine ⟨d, hd, fun again hperm ↦ ?_⟩
  have hparts : ∀ e ∈ d, dirname (nxpath e) = dirname e.2 ∧ basename (nxpath e) = e.1 :=
    fun e he ↦ dirname_joinPath e.2 (hnames.slash_notMem _ (List.mem_map_of_mem he))
  have hnodup : (again.map basename).Nodup := by
    have hbase : (d.map nxpath).map basename = d.map Prod.fst := by
      rw [List.map_map]
      exact List.map_congr_left fun e he ↦ (hparts e he).2
    rw [(hperm.map basename).nodup_iff, hbase]
    exact hnames.nodup
  obtain ⟨d', hd', hagain, hnames'⟩ := file2path_spec again
  have hkept := hnames'.unique (.of_nodup hnodup)
  refine ⟨d', hd', hagain, hkept, conversions_eq_nil fun e he ↦ ?_⟩
  have hbase : e.1 = basename e.2 := by
    rw [← hagain, List.map_map] at hkept
    exact List.map_inj_left.1 hkept e he
  -- the directory is one that `dirname` has found before
  have hmem : e.2 ∈ again := hagain ▸ List.mem_map_of_mem he
  obtain ⟨e₀, he₀, heq⟩ := List.mem_map.1 (hperm.mem_iff.1 hmem)
  obtain ⟨hdir₀, hbase₀⟩ := hparts e₀ he₀
  calc nxpath e = joinPath (dirname e.2) (basename e.2) := by rw [nxpath, hbase]
    _ = joinPath (dirname e₀.2) e₀.1 := by rw [← heq, hdir₀, hbase₀]
    _ = e.2 := heq

example : (file2path ["a//x.h".toList, "b/x.h".toList]).map (·.map nxpath) =
    some ["a/x.h".toList, "b/x0.h".toList] := by decide

end Cppkg.Scripts
