import Cppkg.Lib.WordPattern
import Cppkg.Scripts.LabelUniquify

/-!
# Rewriting the includes of files that are renamed

Before `label_uniquify.py` renames files it goes through all of them, and where one of them
includes a file that is to be renamed, it replaces the old path in the directive by the new one.
The directives are searched with one regular expression and replaced with others, which contain the
old paths: a dot in a path is there a dot of the expression. Of the characters with a meaning in
regular expressions the model knows the dot alone.

A file consists of lines, some of which end in an include directive (`Source`), and a directive
refers to a listed file, or to something else. So the files are a project of which the paths are
not a part: `Holds` says that a project is in the file system, with its files at some paths and
their references written accordingly. `labelUniquify_holds`: what the script leaves is the same
project at the new paths.
-/

namespace Cppkg.Scripts

open Function Renames WordPattern

/-- The text of a file. -/
abbrev Text := List Char

/-! ### The script -/

/-- `strip_prefix`. -/
def stripPrefix (path pre : Path) : Path :=
  ((if pre <+: path then path.drop pre.length else path).dropWhile (· = '/')).rdropWhile (· = '/')

/-- What is in front of the path in a directive. -/
def includeWord : Text := ['#', 'i', 'n', 'c', 'l', 'u', 'd', 'e', ' ', '\"']

/-- An include directive: `'#include "' + path + '"'`. -/
def directive (path : Text) : Text := includeWord ++ (path ++ ['\"'])

/-- The characters with a meaning in regular expressions, but for the dot. -/
def metacharacters : List Char :=
  ['^', '$', '*', '+', '?', '[', ']', '|', '(', ')', '\x7b', '\x7d', '\\']

/-- A character of a regular expression. -/
def atom (c : Char) : Atom Char := if c = '.' then .dot else .lit c

/-- `re.sub`, as long as something is searched and no other character with a meaning than the dot
is in it. -/
def reSub (pattern repl txt : Text) : Option Text :=
  if pattern = [] ∨ pattern.any (· ∈ metacharacters) ∨ '\\' ∈ repl then none
  else some (sub '\n' (pattern.map atom) repl txt)

/-- `find_includes`. -/
def findIncludes (txt : Text) : List Text := findAll '\n' includeWord (['\"'] ++ ['\n']) txt

/-- `replace_includes`. -/
def replaceIncludes (txt : Text) (subs : List (Text × Text)) : Option Text :=
  subs.foldlM (fun txt s ↦ reSub (directive s.1) (directive s.2) txt) txt

/-- `include_conversions`: a dictionary, in which the last pair for a key counts. -/
def includeConversions (removePrefix : Path) (cs : List (Path × Path)) : List (Text × Text) :=
  (cs.map fun c ↦ (stripPrefix c.1 removePrefix, stripPrefix c.2 removePrefix)).reverse

/-- `subs`: the includes of a text that are to be replaced. -/
def includeSubs (convs : List (Text × Text)) (txt : Text) : List (Text × Text) :=
  (findIncludes txt).filterMap fun i ↦ (convs.lookup i).map (i, ·)

section FileSystem

variable {δ : Type} [DecidableEq δ] (resolve : Path → δ)

/-- One iteration of the loop over the paths: the file is read, and written if there is something
to replace. -/
def rewriteFile (convs : List (Text × Text)) (fs : δ × Name → Option Text) (path : Path) :
    Option (δ × Name → Option Text) :=
  (fs (location resolve path)).bind fun txt ↦
    let subs := includeSubs convs txt
    if subs = [] then some fs
    else (replaceIncludes txt subs).map fun nxtxt ↦
      if nxtxt = [] then fs else update fs (location resolve path) (some nxtxt)

/-- The script: new names, the loop that rewrites, and the loop that renames. -/
def labelUniquify (removePrefix : Path) (fs : δ × Name → Option Text) (paths : List Path) :
    Option (δ × Name → Option Text) :=
  (file2path paths).bind fun d ↦
    (paths.foldlM (rewriteFile resolve (includeConversions removePrefix (conversions d))) fs).bind
      fun fs' ↦ renameAll resolve fs' (conversions d)

end FileSystem

/-! ### Files with include directives -/

/-- A text within a line, in which no include directive begins. -/
def PlainText := {l : Text // '\n' ∉ l ∧ ¬ includeWord <:+: l}

/-- What can stand between quotes in a line. -/
def Quotable (path : Text) : Prop := '\n' ∉ path ∧ '\"' ∉ path

instance (path : Text) : Decidable (Quotable path) :=
  inferInstanceAs (Decidable ('\n' ∉ path ∧ '\"' ∉ path))

/-- A line, which may end in an include directive. -/
inductive Line (τ : Type)
  | plain (text : PlainText)
  | reference (indent : PlainText) (target : τ)

/-- A file: lines, and what stands behind the last end of a line. -/
structure Source (τ : Type) where
  lines : List (Line τ)
  rest : PlainText

/-- The text of a line in which targets are written as paths. -/
def Line.render {τ : Type} (name : τ → Text) : Line τ → Text
  | .plain text => text.1
  | .reference indent target => indent.1 ++ directive (name target)

def Line.target? {τ : Type} : Line τ → Option τ
  | .plain _ => none
  | .reference _ target => some target

namespace Source

variable {τ : Type}

/-- The text of a file in which targets are written as paths. -/
def render (name : τ → Text) (src : Source τ) : Text :=
  src.lines.foldr (fun l t ↦ l.render name ++ '\n' :: t) src.rest.1

/-- The targets of a file, in their order. -/
def targets (src : Source τ) : List τ := src.lines.filterMap Line.target?

end Source

/-- What a directive of a project refers to: a listed file, or something else. -/
inductive Reference
  | listed (path : Path)
  | other (path : Text)

/-- A listed file is referred to by the place where it is. -/
def Reference.written (removePrefix : Path) (place : Path → Path) : Reference → Text
  | .listed path => stripPrefix (place path) removePrefix
  | .other path => path

/-- The listed files are at their places, and refer to one another there. -/
def Holds {δ : Type} (resolve : Path → δ) (removePrefix : Path) (fs : δ × Name → Option Text)
    (paths : List Path) (place : Path → Path) (project : Path → Source Reference) : Prop :=
  ∀ p ∈ paths, fs (location resolve (place p)) =
    some ((project p).render (Reference.written removePrefix place))

/-- Where a path goes. -/
def newPath (d : File2Path) (path : Path) : Path := ((d.find? (·.2 = path)).map nxpath).getD path

/-- No character has a meaning in a line, between quotes or in a regular expression, except for
dots. -/
def PlainName (path : Text) : Prop := ∀ c ∈ path, c ∉ '\n' :: '\"' :: metacharacters

instance (path : Text) : Decidable (PlainName path) :=
  List.decidableBAll (· ∉ '\n' :: '\"' :: metacharacters) path

/-- A directive for `q` is taken for one that includes `path`. -/
def TakenFor (removePrefix : Path) (q : Text) (path : Path) : Prop :=
  Matches '\n' ((stripPrefix path removePrefix).map atom) q

instance (removePrefix : Path) (q : Text) (path : Path) :
    Decidable (TakenFor removePrefix q path) :=
  inferInstanceAs (Decidable (List.Forall₂ _ _ _))

/-- A reference to a listed file, or to something that is not taken for a file that is renamed. -/
def Reference.Clear (removePrefix : Path) (d : File2Path) : Reference → Prop
  | .listed path => path ∈ d.map Prod.snd
  | .other q => Quotable q ∧ ∀ e ∈ d, e.2 ≠ nxpath e → ¬ TakenFor removePrefix q e.2

instance (removePrefix : Path) (d : File2Path) : ∀ t, Decidable (Reference.Clear removePrefix d t)
  | .listed path => inferInstanceAs (Decidable (path ∈ d.map Prod.snd))
  | .other q => inferInstanceAs (Decidable (Quotable q ∧ ∀ e ∈ d, _ → ¬ TakenFor _ q _))

/-- The files that are renamed cannot be mistaken for others, although the dots in their paths are
dots of a regular expression. -/
structure Unmistakable (removePrefix : Path) (d : File2Path) (project : Path → Source Reference) :
    Prop where
  plain : ∀ e ∈ d, PlainName e.2
  /-- What is not a listed file is not taken for one that is renamed. -/
  clear : ∀ e ∈ d, ∀ t ∈ (project e.2).targets, t.Clear removePrefix d
  /-- Nor is another listed file. -/
  listed : ∀ e ∈ d, ∀ e' ∈ d, e'.2 ≠ nxpath e' →
    TakenFor removePrefix (stripPrefix e.2 removePrefix) e'.2 → e = e'
  /-- Nor is a new path. -/
  renamed : ∀ e ∈ d, e.2 ≠ nxpath e → ∀ e' ∈ d, e'.2 ≠ nxpath e' →
    ¬ TakenFor removePrefix (stripPrefix (nxpath e) removePrefix) e'.2

/-- The pattern that `re.sub` gets for a path. -/
def directivePattern (path : Text) : List (Atom Char) := (directive path).map atom

/-- A path as it is after a replacement. -/
def retarget (path : Text) (s : Text × Text) : Text :=
  if Matches '\n' (s.1.map atom) path then s.2 else path

/-! ### Where the patterns match -/

theorem newline_notMem_includeWord : '\n' ∉ includeWord := by decide

theorem quote_notMem_dropLast_includeWord : '\"' ∉ includeWord.dropLast := by decide

theorem includeWord_eq : includeWord = includeWord.dropLast ++ ['\"'] := by decide

theorem directivePattern_eq (path : Text) :
    directivePattern path = includeWord.map .lit ++ (path.map atom ++ [.lit '\"']) := by
  rw [directivePattern, directive, List.map_append, List.map_append]
  rfl

theorem matches_directivePattern {path w : Text} :
    Matches '\n' (directivePattern path) w ↔
      ∃ q, w = directive q ∧ Matches '\n' (path.map atom) q := by
  rw [directivePattern_eq, matches_append]
  constructor
  · rintro ⟨u, v, rfl, hu, hv⟩
    obtain ⟨q, e, rfl, hq, he⟩ := matches_append.1 hv
    obtain rfl := matches_map_lit.1 hu
    obtain rfl := (matches_map_lit (w := ['\"'])).1 he
    exact ⟨q, rfl, hq⟩
  · rintro ⟨q, rfl, hq⟩
    exact ⟨_, _, rfl, matches_map_lit.2 rfl,
      matches_append.2 ⟨q, ['\"'], rfl, hq, (matches_map_lit (w := ['\"'])).2 rfl⟩⟩

/-- A match begins like a directive. -/
theorem prefix_of_startsWith {path t : Text} (h : StartsWith '\n' (directivePattern path) t) :
    includeWord <+: t := by
  obtain ⟨w, u, rfl, hw⟩ := startsWith_iff.1 h
  obtain ⟨q, rfl, -⟩ := matches_directivePattern.1 hw
  exact ⟨_, (List.append_assoc _ _ _).symm⟩

theorem newline_notMem_directivePattern {path : Text} (h : '\n' ∉ path) :
    .lit '\n' ∉ directivePattern path := by
  have hatom : ∀ c, atom c = .lit '\n' → c = '\n' := fun c hc ↦ by
    rw [atom] at hc
    split at hc
    · cases hc
    · exact Atom.lit.inj hc
  intro hmem
  obtain ⟨c, hc, heq⟩ := List.mem_map.1 hmem
  obtain rfl := hatom c heq
  simp only [directive, List.mem_append, List.mem_singleton] at hc
  rcases hc with hc | hc | hc
  · exact newline_notMem_includeWord hc
  · exact h hc
  · exact absurd hc (by decide)

theorem directivePattern_ne_nil (path : Text) : directivePattern path ≠ [] := by
  rw [directivePattern_eq]
  exact List.cons_ne_nil _ _

/-- A directive does not contain a shorter one. -/
theorem eq_of_directive_eq {p q x u : Text} (hp : '\"' ∉ p)
    (h : directive p = x ++ (directive q ++ u)) : q = p := by
  have hword := quote_notMem_dropLast_includeWord
  generalize hv : includeWord.dropLast = v at hword
  have hsplit : ∀ r, directive r = (v ++ '\"' :: r) ++ ['\"'] := fun r ↦ by
    rw [directive, includeWord_eq, hv]
    simp
  rw [hsplit, hsplit] at h
  -- the quote that ends the word is the only one in front of the last
  rcases List.eq_nil_or_concat u with rfl | ⟨u, c, rfl⟩
  · have h' : (v ++ '\"' :: p) ++ ['\"'] = ((x ++ v) ++ '\"' :: q) ++ ['\"'] := by
      rw [h]
      simp
    exact ((List.append_cons_inj_of_notMem hword hp).1 (List.append_cancel_right h')).2.2.symm
  · have h' : (v ++ '\"' :: p) ++ ['\"'] = ((x ++ v) ++ '\"' :: (q ++ '\"' :: u)) ++ [c] := by
      rw [h]
      simp
    have hpq := ((List.append_cons_inj_of_notMem hword hp).1 (List.append_inj' h' rfl).1).2.2
    exact absurd (hpq ▸ List.mem_append_right q List.mem_cons_self) hp

/-! ### Replacing in a file -/

/-- In a plain text no match begins, and neither in front of a directive. -/
theorem not_startsWith_plain (l : PlainText) {path s : Text} (hs : s <:+ l.1) :
    ¬ StartsWith '\n' (directivePattern path) s := fun h ↦
  l.2.2 ((prefix_of_startsWith h).isInfix.trans hs.isInfix)

theorem not_startsWith_indent (l : PlainText) {path q s : Text} (hne : s ≠ []) (hs : s <:+ l.1) :
    ¬ StartsWith '\n' (directivePattern path) (s ++ directive q) := fun h ↦ by
  have hpre := prefix_of_prefix_append (by decide) hne (prefix_of_startsWith h)
  exact l.2.2 (hpre.isInfix.trans hs.isInfix)

/-- **A directive is replaced if its path matches.** -/
theorem sub_directive {path new q : Text} (hq : '\"' ∉ q) :
    sub '\n' (directivePattern path) (directive new) (directive q) =
      directive (retarget q (path, new)) := by
  by_cases h : Matches '\n' (path.map atom) q
  · have hm : Matches '\n' (directivePattern path) (directive q) :=
      matches_directivePattern.2 ⟨q, rfl, h⟩
    rw [retarget, if_pos h]
    exact sub_of_matches (List.cons_ne_nil _ _) hm
  · rw [retarget, if_neg h]
    -- a match further on would be a directive within this one
    refine sub_eq_self fun s _ hs hstart ↦ h ?_
    obtain ⟨x, hx⟩ := hs
    obtain ⟨w, u, rfl, hw⟩ := startsWith_iff.1 hstart
    obtain ⟨q', rfl, hq'⟩ := matches_directivePattern.1 hw
    rwa [← eq_of_directive_eq hq hx.symm]

theorem sub_line {τ : Type} {name : τ → Text} {path new : Text} {l : Line τ}
    (hl : ∀ t ∈ l.target?, Quotable (name t)) :
    sub '\n' (directivePattern path) (directive new) (l.render name) =
      l.render fun t ↦ retarget (name t) (path, new) := by
  cases l with
  | plain text => exact sub_eq_self fun s _ hs ↦ not_startsWith_plain text hs
  | reference indent target =>
    rw [Line.render, sub_append_of_forall_not fun s hne hs ↦ not_startsWith_indent indent hne hs,
      sub_directive (hl target rfl).2]
    rfl

theorem newline_notMem_render {τ : Type} {name : τ → Text} {l : Line τ}
    (hl : ∀ t ∈ l.target?, Quotable (name t)) : '\n' ∉ l.render name := by
  cases l with
  | plain text => exact text.2.1
  | reference indent target =>
    simp only [Line.render, directive, List.mem_append, List.mem_singleton, not_or]
    exact ⟨indent.2.1, newline_notMem_includeWord, (hl target rfl).1, by decide⟩

namespace Source

variable {τ : Type} {name : τ → Text} {src : Source τ}

theorem render_cons (l : Line τ) (ls : List (Line τ)) (rest : PlainText) :
    (Source.mk (l :: ls) rest).render name =
      l.render name ++ '\n' :: (Source.mk ls rest).render name := rfl

/-- The targets of a file can be written between quotes. -/
def Writable (name : τ → Text) (src : Source τ) : Prop := ∀ t ∈ src.targets, Quotable (name t)

theorem writable_cons {l : Line τ} {ls : List (Line τ)} {rest : PlainText} :
    (Source.mk (l :: ls) rest).Writable name ↔
      (∀ t ∈ l.target?, Quotable (name t)) ∧ (Source.mk ls rest).Writable name := by
  cases l <;> simp [Writable, targets, Line.target?]

/-- **One replacement in a file.** The induction is on the lines. -/
theorem sub_render {path new : Text} (hpath : '\n' ∉ path) (h : src.Writable name) :
    sub '\n' (directivePattern path) (directive new) (src.render name) =
      src.render fun t ↦ retarget (name t) (path, new) := by
  obtain ⟨ls, rest⟩ := src
  induction ls with
  | nil => exact sub_eq_self fun s _ hs ↦ not_startsWith_plain rest hs
  | cons l ls ih =>
    obtain ⟨hl, hls⟩ := writable_cons.1 h
    rw [render_cons, render_cons, sub_append_nl (newline_notMem_directivePattern hpath)
      (directivePattern_ne_nil path) (newline_notMem_render hl), sub_line hl, ih hls]

/-- **What is found in a file.** -/
theorem findIncludes_render (h : src.Writable name) :
    findIncludes (src.render name) = src.targets.map name := by
  obtain ⟨ls, rest⟩ := src
  induction ls with
  | nil => exact findAll_eq_nil rest.2.2
  | cons l ls ih =>
    obtain ⟨hl, hls⟩ := writable_cons.1 h
    rw [render_cons]
    cases l with
    | plain text =>
      exact (findAll_append_nl newline_notMem_includeWord text.2.2).trans (ih hls)
    | reference indent target =>
      obtain ⟨hline, -⟩ := hl target rfl
      have hfound : findAll '\n' includeWord (['\"'] ++ ['\n']) (includeWord ++ (name target ++
          (['\"'] ++ '\n' :: (Source.mk ls rest).render name))) =
            name target :: findIncludes ((Source.mk ls rest).render name) :=
        findAll_append_line (by decide) hline (List.cons_ne_nil _ _)
      have hindent : ∀ s, s ≠ [] → s <:+ indent.1 → ¬ includeWord <+: s ++
          (includeWord ++ (name target ++ (['\"'] ++ '\n' :: (Source.mk ls rest).render name))) :=
        fun s hne hs hpre ↦ indent.2.2
          ((prefix_of_prefix_append (by decide) hne hpre).isInfix.trans hs.isInfix)
      rw [Line.render, directive, findIncludes, List.append_assoc, List.append_assoc,
        List.append_assoc, findAll_append_of_forall_not hindent, hfound]
      exact congrArg (name target :: ·) (ih hls)

theorem render_congr {name' : τ → Text} (h : ∀ t ∈ src.targets, name t = name' t) :
    src.render name = src.render name' := by
  obtain ⟨ls, rest⟩ := src
  induction ls with
  | nil => rfl
  | cons l ls ih =>
    rw [render_cons, render_cons]
    cases l with
    | plain text => rw [ih h]; rfl
    | reference indent target =>
      rw [ih fun t ht ↦ h t (List.mem_cons_of_mem target ht), Line.render, Line.render,
        h target List.mem_cons_self]

theorem render_ne_nil (h : src.targets ≠ []) : src.render name ≠ [] := by
  obtain ⟨ls, rest⟩ := src
  cases ls with
  | nil => exact absurd rfl h
  | cons l ls =>
    rw [render_cons]
    exact List.append_ne_nil_of_right_ne_nil _ (List.cons_ne_nil _ _)

end Source

/-! ### All replacements in a file -/

theorem reSub_eq {pattern repl txt : Text} (hne : pattern ≠ [])
    (hpattern : ∀ c ∈ pattern, c ∉ metacharacters) (hrepl : '\\' ∉ repl) :
    reSub pattern repl txt = some (sub '\n' (pattern.map atom) repl txt) := by
  refine if_neg (not_or.2 ⟨hne, not_or.2 ⟨fun hany ↦ ?_, hrepl⟩⟩)
  obtain ⟨c, hc, hmeta⟩ := List.any_eq_true.1 hany
  exact hpattern c hc (of_decide_eq_true hmeta)

namespace PlainName

variable {path : Text}

theorem quotable (h : PlainName path) : Quotable path :=
  ⟨fun hc ↦ h _ hc (by decide), fun hc ↦ h _ hc (by decide)⟩

theorem notMem_metacharacters (h : PlainName path) {c : Char} (hc : c ∈ directive path) :
    c ∉ metacharacters := by
  simp only [directive, List.mem_append, List.mem_singleton] at hc
  rcases hc with hc | hc | rfl
  · have hword : includeWord.all (· ∉ metacharacters) := by decide
    exact of_decide_eq_true (List.all_eq_true.1 hword c hc)
  · exact fun hmeta ↦ h c hc (List.mem_cons_of_mem _ (List.mem_cons_of_mem _ hmeta))
  · decide

/-- Directives with plain names are in the part of regular expressions that is modelled. -/
theorem reSub_directive {new : Text} (h : PlainName path) (hnew : PlainName new) (txt : Text) :
    reSub (directive path) (directive new) txt =
      some (sub '\n' (directivePattern path) (directive new) txt) :=
  reSub_eq (List.cons_ne_nil _ _) (fun _ ↦ h.notMem_metacharacters)
    fun hc ↦ hnew.notMem_metacharacters hc (by decide)

end PlainName

theorem writable_retarget {τ : Type} {name : τ → Text} {src : Source τ} {s : Text × Text}
    (h : src.Writable name) (hs : Quotable s.2) :
    src.Writable fun t ↦ retarget (name t) s := by
  intro t ht
  show Quotable (retarget (name t) s)
  rw [retarget]
  split
  · exact hs
  · exact h t ht

/-- **All replacements in a file** are made in the paths of its directives. -/
theorem replaceIncludes_render {τ : Type} {name : τ → Text} {src : Source τ}
    {subs : List (Text × Text)} (hsubs : ∀ s ∈ subs, PlainName s.1 ∧ PlainName s.2)
    (h : src.Writable name) :
    replaceIncludes (src.render name) subs =
      some (src.render fun t ↦ subs.foldl retarget (name t)) := by
  induction subs generalizing name with
  | nil => rfl
  | cons s subs ih =>
    rw [List.forall_mem_cons] at hsubs
    obtain ⟨⟨hold, hnew⟩, hsubs⟩ := hsubs
    rw [replaceIncludes, List.foldlM_cons, hold.reSub_directive hnew,
      Source.sub_render hold.quotable.1 h]
    exact ih hsubs (writable_retarget h hnew.quotable)

/-- A path is replaced too if a dot of the old one stands for a letter of it. -/
example : replaceIncludes (directive "b/xah".toList) [("b/x.h".toList, "b/x0.h".toList)] =
    some (directive "b/x0.h".toList) := by decide

section Retarget

variable {subs : List (Text × Text)} {q n : Text}

theorem foldl_retarget_of_not (h : ∀ s ∈ subs, ¬ Matches '\n' (s.1.map atom) q) :
    subs.foldl retarget q = q := by
  induction subs with
  | nil => rfl
  | cons s subs ih =>
    rw [List.forall_mem_cons] at h
    rw [List.foldl_cons, retarget, if_neg h.1, ih h.2]

/-- A path that is replaced, with what is not replaced again. -/
theorem foldl_retarget (hex : ∃ s ∈ subs, Matches '\n' (s.1.map atom) q)
    (hto : ∀ s ∈ subs, Matches '\n' (s.1.map atom) q → s.2 = n)
    (hn : ∀ s ∈ subs, ¬ Matches '\n' (s.1.map atom) n) : subs.foldl retarget q = n := by
  induction subs with
  | nil => simp at hex
  | cons s subs ih =>
    rw [List.forall_mem_cons] at hto hn
    rw [List.foldl_cons, retarget]
    split
    next hs => rw [hto.1 hs, foldl_retarget_of_not hn.2]
    next hs =>
      obtain ⟨s', hs', hq⟩ := hex
      have hne : s' ≠ s := by
        rintro rfl
        exact hs hq
      exact ih ⟨s', List.mem_of_ne_of_mem hne hs', hq⟩ hto.2 hn.2

end Retarget

/-! ### New names -/

theorem forall_mem_numbered {P : Char → Prop} (hdigit : ∀ c, c.isDigit = true → P c)
    (hdot : P '.') {n : Name} (hn : ∀ c ∈ n, P c) {i : ℕ} : ∀ c ∈ numbered n i, P c := by
  have hparts : List.intercalate ['.'] (n.splitOn '.') = n := List.intercalate_splitOn '.'
  have hdigits : ∀ c ∈ Nat.toDigits 10 i, P c := fun c hc ↦
    hdigit c (Nat.isDigit_of_mem_toDigits (by decide) (by decide) hc)
  rw [numbered]
  generalize n.splitOn '.' = fileparts at hparts
  subst hparts
  cases fileparts with
  | nil => simp_all [or_imp]
  | cons part rest =>
    cases rest with
    | nil => simp_all [or_imp]
    | cons part' rest =>
      rw [List.intercalate_cons_cons] at hn
      simp_all [or_imp, forall_and]

/-- A new name is made of the characters of the old one, digits and a dot. -/
theorem GreedyNames.forall_mem {P : Char → Prop} (hdigit : ∀ c, c.isDigit = true → P c)
    (hdot : P '.') {paths : List Path} {names : List Name} (h : GreedyNames paths names)
    (hpaths : ∀ p ∈ paths, ∀ c ∈ p, P c) : ∀ n ∈ names, ∀ c ∈ n, P c := by
  have hbase : ∀ {p : Path}, (∀ c ∈ p, P c) → ∀ c ∈ basename p, P c := fun hp c hc ↦
    hp c ((List.rtakeWhile_suffix _ _).subset hc)
  induction h with
  | nil => simp
  | own _ _ ih =>
    rw [List.forall_mem_append] at hpaths ⊢
    exact ⟨ih hpaths.1, by simpa using hbase (hpaths.2 _ List.mem_cons_self)⟩
  | number _ _ _ ih =>
    rw [List.forall_mem_append] at hpaths ⊢
    refine ⟨ih hpaths.1, ?_⟩
    simpa using forall_mem_numbered hdigit hdot (hbase (hpaths.2 _ List.mem_cons_self))

/-- Stripping leaves characters of the path. -/
theorem stripPrefix_subset (path pre : Path) : stripPrefix path pre ⊆ path := by
  intro c hc
  have hmem := (List.dropWhile_suffix _).subset ((List.rdropWhile_prefix _ _).subset hc)
  split at hmem
  · exact List.mem_of_mem_drop hmem
  · exact hmem

theorem PlainName.stripPrefix {path pre : Path} (h : PlainName path) :
    PlainName (stripPrefix path pre) := fun c hc ↦ h c (stripPrefix_subset path pre hc)

theorem dirname_subset (path : Path) : dirname path ⊆ path := by
  intro c hc
  rw [dirname] at hc
  refine (List.rdropWhile_prefix (· ≠ '/') path).subset ?_
  split at hc
  · exact (List.rdropWhile_prefix _ _).subset hc
  · exact hc

theorem forall_mem_joinPath {P : Char → Prop} (hslash : P '/') {a b : Path} (ha : ∀ c ∈ a, P c)
    (hb : ∀ c ∈ b, P c) : ∀ c ∈ joinPath a b, P c := by
  rw [joinPath]
  split
  · exact hb
  · split
    · exact List.forall_mem_append.2 ⟨ha, hb⟩
    · exact List.forall_mem_append.2 ⟨ha, List.forall_mem_cons.2 ⟨hslash, hb⟩⟩

/-- A new path is made of the characters of the old one, digits, a dot and a slash. -/
theorem forall_mem_nxpath {P : Char → Prop} (hdigit : ∀ c, c.isDigit = true → P c) (hdot : P '.')
    (hslash : P '/') {paths : List Path} {d : File2Path} (hpaths : d.map Prod.snd = paths)
    (hnames : GreedyNames paths (d.map Prod.fst)) (h : ∀ p ∈ paths, ∀ c ∈ p, P c) :
    ∀ e ∈ d, ∀ c ∈ nxpath e, P c := by
  intro e he
  have hold : ∀ c ∈ e.2, P c := h e.2 (hpaths ▸ List.mem_map_of_mem he)
  exact forall_mem_joinPath hslash (fun c hc ↦ hold c (dirname_subset e.2 hc))
    (hnames.forall_mem hdigit hdot h e.1 (List.mem_map_of_mem he))

/-- The new paths of plain paths are plain. -/
theorem plainName_nxpath {paths : List Path} {d : File2Path} (hpaths : d.map Prod.snd = paths)
    (hnames : GreedyNames paths (d.map Prod.fst)) (hplain : ∀ e ∈ d, PlainName e.2) :
    ∀ e ∈ d, PlainName (nxpath e) := by
  have hspecial : ('\n' :: '\"' :: metacharacters).all (!·.isDigit) := by decide
  have hdigit : ∀ c : Char, c.isDigit = true → c ∉ '\n' :: '\"' :: metacharacters :=
    fun c hc hmem ↦ by simpa [hc] using List.all_eq_true.1 hspecial c hmem
  refine forall_mem_nxpath hdigit (by decide) (by decide) hpaths hnames ?_
  rw [← hpaths, List.forall_mem_map]
  exact hplain

/-! ### One file -/

section Project

variable {removePrefix : Path} {d : File2Path} {project : Path → Source Reference}

theorem mem_conversions {c : Path × Path} :
    c ∈ conversions d ↔ ∃ e ∈ d, e.2 ≠ nxpath e ∧ c = (e.2, nxpath e) := by
  rw [conversions, List.mem_filterMap]
  refine exists_congr fun e ↦ and_congr_right fun _ ↦ ?_
  split
  next h => simp [h, eq_comm]
  next h => simp [h]

theorem mem_includeConversions {s : Text × Text} :
    s ∈ includeConversions removePrefix (conversions d) ↔ ∃ e ∈ d, e.2 ≠ nxpath e ∧
      s = (stripPrefix e.2 removePrefix, stripPrefix (nxpath e) removePrefix) := by
  simp only [includeConversions, List.mem_reverse, List.mem_map, mem_conversions]
  constructor
  · rintro ⟨_, ⟨e, he, hne, rfl⟩, rfl⟩
    exact ⟨e, he, hne, rfl⟩
  · rintro ⟨e, he, hne, rfl⟩
    exact ⟨_, ⟨e, he, hne, rfl⟩, rfl⟩

theorem mem_of_lookup {κ ν : Type} [BEq κ] [LawfulBEq κ] {l : List (κ × ν)} {k : κ} {v : ν}
    (h : l.lookup k = some v) : (k, v) ∈ l := by
  obtain ⟨l₁, l₂, rfl, -⟩ := List.lookup_eq_some_iff.1 h
  simp

theorem newPath_of_mem (hnodup : (d.map Prod.snd).Nodup) {e : Name × Path} (he : e ∈ d) :
    newPath d e.2 = nxpath e := by
  obtain ⟨e', hfind⟩ : ∃ e', d.find? (·.2 = e.2) = some e' :=
    Option.isSome_iff_exists.1 (List.find?_isSome.2 ⟨e, he, decide_eq_true rfl⟩)
  have heq : e'.2 = e.2 := by simpa using List.find?_some hfind
  have hmem : e' ∈ d := List.mem_of_find?_eq_some hfind
  rw [newPath, hfind, Option.map_some, Option.getD_some,
    List.inj_on_of_nodup_map hnodup hmem he heq]

/-- A path matches itself. -/
theorem takenFor_self (path : Path) :
    TakenFor removePrefix (stripPrefix path removePrefix) path := by
  rw [TakenFor, Matches, List.forall₂_map_left_iff, List.forall₂_same]
  intro c _
  rw [atom]
  split
  next hc => exact hc ▸ (by decide : '.' ≠ '\n')
  next => exact rfl

/-- What is replaced are old paths by new ones. -/
theorem of_mem_includeSubs {txt : Text} {s : Text × Text}
    (hs : s ∈ includeSubs (includeConversions removePrefix (conversions d)) txt) :
    ∃ e ∈ d, e.2 ≠ nxpath e ∧
      s = (stripPrefix e.2 removePrefix, stripPrefix (nxpath e) removePrefix) := by
  obtain ⟨i, -, hi⟩ := List.mem_filterMap.1 hs
  obtain ⟨v, hv, rfl⟩ := Option.map_eq_some_iff.1 hi
  exact mem_includeConversions.1 (mem_of_lookup hv)

namespace Unmistakable

variable {e : Name × Path}

theorem writable (h : Unmistakable removePrefix d project) (he : e ∈ d) :
    (project e.2).Writable (Reference.written removePrefix id) := by
  intro t ht
  cases t with
  | listed p =>
    obtain ⟨e', he', rfl⟩ := List.mem_map.1 (h.clear e he (.listed p) ht)
    exact (h.plain e' he').stripPrefix.quotable
  | other q => exact (h.clear e he (.other q) ht).1

theorem lookup_includeConversions (h : Unmistakable removePrefix d project) (he : e ∈ d)
    (hne : e.2 ≠ nxpath e) :
    (includeConversions removePrefix (conversions d)).lookup (stripPrefix e.2 removePrefix) =
      some (stripPrefix (nxpath e) removePrefix) := by
  have hmem : (stripPrefix e.2 removePrefix, stripPrefix (nxpath e) removePrefix) ∈
      includeConversions removePrefix (conversions d) := mem_includeConversions.2 ⟨e, he, hne, rfl⟩
  obtain ⟨v, hv⟩ := Option.isSome_iff_exists.1
    (List.lookup_isSome_iff.2 ⟨_, hmem, beq_self_eq_true (stripPrefix e.2 removePrefix)⟩)
  obtain ⟨e', he', hne', heq⟩ := mem_includeConversions.1 (mem_of_lookup hv)
  obtain ⟨hold, rfl⟩ := Prod.mk.inj heq
  obtain rfl := h.listed e he e' he' hne' (hold ▸ takenFor_self e'.2)
  exact hv

/-- **The directives of one file** get the new paths of what they refer to. -/
theorem foldl_includeSubs (h : Unmistakable removePrefix d project)
    (hnodup : (d.map Prod.snd).Nodup) (he : e ∈ d) {t : Reference}
    (ht : t ∈ (project e.2).targets) :
    (includeSubs (includeConversions removePrefix (conversions d))
        ((project e.2).render (Reference.written removePrefix id))).foldl retarget
      (Reference.written removePrefix id t) = Reference.written removePrefix (newPath d) t := by
  have hfound := Source.findIncludes_render (h.writable he)
  generalize (project e.2).render (Reference.written removePrefix id) = txt at hfound ⊢
  have hsubs : ∀ s ∈ includeSubs (includeConversions removePrefix (conversions d)) txt,
      ∃ e ∈ d, e.2 ≠ nxpath e ∧
        s = (stripPrefix e.2 removePrefix, stripPrefix (nxpath e) removePrefix) :=
    fun s ↦ of_mem_includeSubs
  cases t with
  | other q =>
    refine foldl_retarget_of_not fun s hs ↦ ?_
    obtain ⟨e', he', hne', rfl⟩ := hsubs s hs
    exact (h.clear e he (.other q) ht).2 e' he' hne'
  | listed p =>
    obtain ⟨e₀, he₀, rfl⟩ := List.mem_map.1 (h.clear e he (.listed p) ht)
    rw [Reference.written, Reference.written, newPath_of_mem hnodup he₀, id]
    by_cases hstay : e₀.2 = nxpath e₀
    · -- no pattern finds a file that stays
      rw [← hstay]
      refine foldl_retarget_of_not fun s hs hq ↦ ?_
      obtain ⟨e', he', hne', rfl⟩ := hsubs s hs
      exact hne' (h.listed e₀ he₀ e' he' hne' hq ▸ hstay)
    · -- a file that is renamed is found by its own pattern, and its new path by none
      have hfind : stripPrefix e₀.2 removePrefix ∈ findIncludes txt :=
        hfound ▸ List.mem_map_of_mem ht
      refine foldl_retarget ⟨(_, stripPrefix (nxpath e₀) removePrefix),
        List.mem_filterMap.2 ⟨_, hfind, ?_⟩, takenFor_self e₀.2⟩ (fun s hs hq ↦ ?_) fun s hs ↦ ?_
      · rw [h.lookup_includeConversions he₀ hstay]
        rfl
      · obtain ⟨e', he', hne', rfl⟩ := hsubs s hs
        obtain rfl := h.listed e₀ he₀ e' he' hne' hq
        rfl
      · obtain ⟨e', he', hne', rfl⟩ := hsubs s hs
        exact h.renamed e₀ he₀ hstay e' he' hne'

/-- **One file.** It is written with the new paths, or needs no writing. -/
theorem rewriteFile_eq {δ : Type} [DecidableEq δ] {resolve : Path → δ}
    {fs : δ × Name → Option Text} (h : Unmistakable removePrefix d project)
    (hnodup : (d.map Prod.snd).Nodup) (hplain : ∀ e ∈ d, PlainName (nxpath e)) (he : e ∈ d)
    (hfs : fs (location resolve e.2) =
      some ((project e.2).render (Reference.written removePrefix id))) :
    rewriteFile resolve (includeConversions removePrefix (conversions d)) fs e.2 =
      some (update fs (location resolve e.2)
        (some ((project e.2).render (Reference.written removePrefix (newPath d))))) := by
  have hfound := Source.findIncludes_render (h.writable he)
  have hsubs : ∀ s ∈ includeSubs (includeConversions removePrefix (conversions d))
      ((project e.2).render (Reference.written removePrefix id)), PlainName s.1 ∧ PlainName s.2 :=
    fun s hs ↦ by
      obtain ⟨e', he', -, rfl⟩ := of_mem_includeSubs hs
      exact ⟨(h.plain e' he').stripPrefix, (hplain e' he').stripPrefix⟩
  have hnew := replaceIncludes_render hsubs (h.writable he)
  rw [Source.render_congr fun t ↦ h.foldl_includeSubs hnodup he] at hnew
  generalize (project e.2).render (Reference.written removePrefix id) = txt at hfs hfound hnew
  rw [rewriteFile, hfs, Option.bind_some]
  dsimp only
  by_cases hnil : includeSubs (includeConversions removePrefix (conversions d)) txt = []
  · -- without a replacement the two ways of writing the file agree
    rw [hnil] at hnew
    rw [if_pos hnil, ← Option.some.inj hnew, ← hfs, update_eq_self]
  · have hne : (project e.2).targets ≠ [] := fun htar ↦ hnil (by
      rw [includeSubs, hfound, htar]
      rfl)
    rw [if_neg hnil, hnew, Option.map_some, if_neg (Source.render_ne_nil hne)]

/-- **The loop over the paths.** The files at distinct locations do not get in each other's way. -/
theorem foldlM_rewriteFile {δ : Type} [DecidableEq δ] {resolve : Path → δ}
    {fs : δ × Name → Option Text} (h : Unmistakable removePrefix d project)
    (hnodup : (d.map Prod.snd).Nodup) (hplain : ∀ e ∈ d, PlainName (nxpath e))
    {paths : List Path} (hpaths : paths ⊆ d.map Prod.snd)
    (hlocs : (paths.map (location resolve)).Nodup)
    (hfs : Holds resolve removePrefix fs paths id project) :
    ∃ fs', paths.foldlM
        (rewriteFile resolve (includeConversions removePrefix (conversions d))) fs = some fs' ∧
      (∀ p ∈ paths, fs' (location resolve p) =
        some ((project p).render (Reference.written removePrefix (newPath d)))) ∧
      ∀ l ∉ paths.map (location resolve), fs' l = fs l := by
  induction paths generalizing fs with
  | nil => exact ⟨fs, rfl, by simp, fun _ _ ↦ rfl⟩
  | cons p paths ih =>
    obtain ⟨e, he, rfl⟩ := List.mem_map.1 (hpaths List.mem_cons_self)
    obtain ⟨hnew, hlocs⟩ := List.nodup_cons.1 hlocs
    obtain ⟨hfs₁, hfs⟩ := List.forall_mem_cons.1 hfs
    have hne : ∀ p ∈ paths, location resolve p ≠ location resolve e.2 := fun p hp heq ↦
      hnew (heq ▸ List.mem_map_of_mem hp)
    -- the files still to come are as they were
    have hrest : Holds resolve removePrefix (update fs (location resolve e.2)
        (some ((project e.2).render (Reference.written removePrefix (newPath d))))) paths id
        project := fun p hp ↦ (update_of_ne (hne p hp) _ _).trans (hfs p hp)
    obtain ⟨fs', hrun, hwritten, hframe⟩ := ih (List.cons_subset.1 hpaths).2 hlocs hrest
    refine ⟨fs', ?_, List.forall_mem_cons.2 ⟨?_, hwritten⟩, fun l hl ↦ ?_⟩
    · rw [List.foldlM_cons, h.rewriteFile_eq hnodup hplain he hfs₁]
      exact hrun
    · rw [hframe _ hnew, update_self]
    · rw [List.map_cons, List.mem_cons, not_or] at hl
      rw [hframe l hl.2, update_of_ne hl.1]

end Unmistakable

end Project

/-- **The script keeps the project.** If the paths lead to distinct files, the new places are free
and no file that is renamed can be mistaken for another, then the files are afterwards at their new
paths, refer there to one another as they did before, and no other file is touched. -/
theorem labelUniquify_holds {δ : Type} [DecidableEq δ] {resolve : Path → δ} {removePrefix : Path}
    {fs : δ × Name → Option Text} {paths : List Path} {d : File2Path}
    {project : Path → Source Reference} (hd : file2path paths = some d)
    (hlocs : (paths.map (location resolve)).Nodup) (hfree : TargetsFree resolve fs paths)
    (hfs : Holds resolve removePrefix fs paths id project)
    (h : Unmistakable removePrefix d project) :
    ∃ fs', labelUniquify resolve removePrefix fs paths = some fs' ∧
      Holds resolve removePrefix fs' paths (newPath d) project ∧
      ∀ l ∉ paths.map (location resolve),
        l ∉ paths.map (location resolve ∘ newPath d) → fs' l = fs l := by
  obtain ⟨d', hd', hpaths, hnames⟩ := file2path_spec paths
  obtain rfl := Option.some.inj (hd.symm.trans hd')
  have hnodup : (d.map Prod.snd).Nodup := hpaths ▸ hlocs.of_map _
  have hplain := plainName_nxpath hpaths hnames h.plain
  obtain ⟨fs₁, hrewrite, hwritten, hframe₁⟩ :=
    h.foldlM_rewriteFile hnodup hplain (List.Subset.refl _) (hpaths.symm ▸ hlocs)
      (hpaths.symm ▸ hfs)
  have hsrc : (locations resolve (d.map fun e ↦ (e.2, nxpath e))).map Prod.fst =
      paths.map (location resolve) := by
    rw [locations, ← hpaths, List.map_map, List.map_map, List.map_map]
    rfl
  have hdst : (locations resolve (d.map fun e ↦ (e.2, nxpath e))).map Prod.snd =
      paths.map (location resolve ∘ newPath d) := by
    rw [locations, ← hpaths, List.map_map, List.map_map, List.map_map]
    exact List.map_congr_left fun e he ↦
      congrArg (location resolve) (newPath_of_mem hnodup he).symm
  -- writing files makes no place occupied
  have hfree₁ : ∀ e ∈ d, location resolve e.2 = location resolve (nxpath e) ∨
      fs₁ (location resolve (nxpath e)) = none := fun e he ↦ by
    rw [location_nxpath (hnames.slash_notMem _ (List.mem_map_of_mem he))]
    rcases (targetsFree_iff hpaths hnames).1 hfree e he with hstay | hnone
    · exact .inl (congrArg (resolve (dirname e.2), ·) hstay.symm)
    · refine .inr ((hframe₁ _ fun hmem ↦ ?_).trans hnone)
      obtain ⟨p, hp, hl⟩ := List.mem_map.1 hmem
      rw [← hl, ← id_eq p, hfs p (hpaths ▸ hp)] at hnone
      cases hnone
  obtain ⟨fs', hmoves, -, harrive, hframe⟩ := (skips_conversions d).exists_moves
    (hsrc ▸ hlocs) (nodup_locations hnames)
    (forall_mem_locations.2 fun e he ↦ by
      rw [hwritten e.2 (List.mem_map_of_mem he)]
      exact Option.some_ne_none _)
    (forall_mem_locations.2 hfree₁)
  refine ⟨fs', ?_, fun p hp ↦ ?_, fun l hold hnew ↦ ?_⟩
  · rw [labelUniquify, hd, Option.bind_some, ← hpaths, hrewrite]
    exact hmoves
  · obtain ⟨e, he, rfl⟩ := List.mem_map.1 (hpaths.symm ▸ hp)
    rw [newPath_of_mem hnodup he, forall_mem_locations.1 harrive e he,
      hwritten e.2 (List.mem_map_of_mem he)]
  · rw [hframe l (hdst ▸ hnew), hsrc, if_neg hold, hframe₁ l (hpaths ▸ hold)]

/-- A file that includes two files of one name, of which one is renamed, and something else. -/
theorem labelUniquify_holds_three :
    ∃ paths d fs project,
      d.map nxpath = ["src/a/x.h".toList, "src/b/x0.h".toList, "src/b/y.h".toList] ∧
      (project "src/b/y.h".toList).targets =
        [.listed "src/b/x.h".toList, .listed "src/a/x.h".toList, .other "c.h".toList] ∧
      ∃ fs', labelUniquify id "src".toList fs paths = some fs' ∧
        Holds id "src".toList fs' paths (newPath d) project ∧
        ∀ l ∉ paths.map (location id), l ∉ paths.map (location id ∘ newPath d) →
          fs' l = fs l := by
  let blank : PlainText := ⟨[], by decide⟩
  let project : Path → Source Reference := fun p ↦
    if p = "src/b/y.h".toList then
      ⟨[.reference blank (.listed "src/b/x.h".toList),
        .reference blank (.listed "src/a/x.h".toList),
        .reference blank (.other "c.h".toList)], blank⟩
    else ⟨[], blank⟩
  let fs : Path × Name → Option Text := fun l ↦
    if l ∈ [("src/a".toList, "x.h".toList), ("src/b".toList, "x.h".toList)] then some []
    else if l = ("src/b".toList, "y.h".toList) then
      some ((project "src/b/y.h".toList).render (Reference.written "src".toList id))
    else none
  refine ⟨["src/a/x.h".toList, "src/b/x.h".toList, "src/b/y.h".toList],
    [("x.h".toList, "src/a/x.h".toList), ("x0.h".toList, "src/b/x.h".toList),
      ("y.h".toList, "src/b/y.h".toList)], fs, project, by decide, rfl,
    labelUniquify_holds (by decide) (by decide) ?_ ?_ ?_⟩
  · have hnames : GreedyNames
        ([] ++ ["src/a/x.h".toList] ++ ["src/b/x.h".toList] ++ ["src/b/y.h".toList])
        ([] ++ [basename "src/a/x.h".toList] ++ [numbered (basename "src/b/x.h".toList) 0] ++
          [basename "src/b/y.h".toList]) :=
      ((GreedyNames.nil.own (by decide)).number (by decide)
        ⟨by decide, fun _ _ ↦ Nat.zero_le _⟩).own (by decide)
    intro names h
    obtain rfl := h.unique hnames
    decide
  · intro p hp
    simp only [List.mem_cons, List.not_mem_nil, or_false] at hp
    rcases hp with rfl | rfl | rfl <;> rfl
  · exact ⟨by decide, by decide, by decide, by decide⟩

end Cppkg.Scripts
