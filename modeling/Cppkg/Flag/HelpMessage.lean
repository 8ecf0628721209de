import Cppkg.Flag.FlagSet
import Mathlib.Data.List.Nodup

/-!
# The help message

What `--help` shows of a flag set that was declared by any number of `add_flags` and `add_arg`, in
any order. Boost keeps the positions of arguments as `Positions`: a name for each position that is
limited, and one for all positions behind them, if there is an argument without a limit.

The usage line goes through the positions. When there is no limit to them it cannot count, and
prints names until it has printed the one of the last position. That name comes last as long as no
position before it has it (`usageArgs_eq`), which distinct names provide.
-/

namespace Cppkg.Flag

variable {V P M : Type}

/-- `opt::positional_options_description`. -/
structure Positions where
  /-- The names of the positions that are limited. -/
  names : List String
  /-- The name of all positions behind them; empty if there are none. -/
  trailing : String

namespace Positions

/-- No positions. -/
def empty : Positions := ⟨[], ""⟩

/-- `add`: the next `maxCount` positions, or for -1 all that are left. -/
def add (p : Positions) (name : String) (maxCount : ℤ) : Positions :=
  if maxCount = -1 then { p with trailing := name }
  else { p with names := p.names ++ List.replicate maxCount.toNat name }

/-- `max_total_count`. -/
def maxTotalCount (p : Positions) : ℕ := if p.trailing = "" then p.names.length else unsignedMax

/-- `name_for_position`. -/
def nameForPosition (p : Positions) (i : ℕ) : String := p.names.getD i p.trailing

end Positions

/-- Boost keeps positions as it documents. -/
structure Boost.Positional (b : Boost V Positions M) : Prop where
  addPosition : ∀ p name n, -1 ≤ n → b.addPosition p name n = p.add name n
  maxTotalCount : ∀ p, b.maxTotalCount p = p.maxTotalCount
  nameForPosition : ∀ p i, b.nameForPosition p i = p.nameForPosition i

/-- What is declared of a flag set. -/
inductive Declaration (V : Type) where
  | flag (o : OptionDescription V)
  | arg (o : OptionDescription V) (maxcount : ℤ)

/-- The name and the count of an argument. -/
def Declaration.arg? : Declaration V → Option (String × ℤ)
  | flag _ => none
  | arg o maxcount => some (o.name, maxcount)

/-- The positions an argument takes, if they are limited. -/
def limited (a : String × ℤ) : List String :=
  if a.2 = -1 then [] else List.replicate a.2.toNat a.1

/-- The argument that takes all positions that are left. -/
def unlimited (a : String × ℤ) : Option String := if a.2 = -1 then some a.1 else none

/-- A flag or an argument is declared. -/
def FlagSet.declare (b : Boost V P M) (f : FlagSet V P) : Declaration V → FlagSet V P
  | .flag o => f.addFlag o
  | .arg o maxcount => f.addArg b o maxcount

/-! ### The usage line -/

/-- Each name behind a space. -/
def spaced (names : List String) : String := String.join (names.map (" " ++ ·))

theorem spaced_append (names names' : List String) :
    spaced (names ++ names') = spaced names ++ spaced names' := by
  simp [spaced]

theorem foldl_spaced (names : List String) (usage : String) :
    names.foldl (fun usage name ↦ usage ++ " " ++ name) usage = usage ++ spaced names := by
  induction names generalizing usage with
  | nil => simp [spaced]
  | cons name names ih =>
    rw [List.foldl_cons, ih]
    simp [spaced, String.append_assoc]

section

variable {b : Boost V Positions M} {pos : Positions} {i t : ℕ} {arg usage : String}

/-- The loop stops at the name it waits for. -/
theorem usageArgs_last (t i : ℕ) (last usage : String) :
    usageArgs b pos last t i last usage = (last, usage) := by
  cases t with
  | zero => rfl
  | succ t => simp [usageArgs]

/-- **The loop over the positions** prints the names of those that are limited, and then the one of
the others. The induction is on the names that are left. -/
theorem usageArgs_eq (hb : b.Positional) {rest : List String} (hrest : pos.names.drop i = rest)
    (hlast : pos.trailing ∉ rest) (ht : rest.length < t) (harg : arg ≠ pos.trailing) :
    usageArgs b pos pos.trailing t i arg usage =
      (pos.trailing, usage ++ spaced (rest ++ [pos.trailing])) := by
  induction rest generalizing i t arg usage with
  | nil =>
    obtain ⟨t, rfl⟩ := Nat.exists_eq_succ_of_ne_zero (Nat.ne_zero_of_lt ht)
    have hname : b.nameForPosition pos i = pos.trailing := by
      rw [hb.nameForPosition, Positions.nameForPosition, List.getD_eq_getElem?_getD,
        List.getElem?_eq_none (List.drop_eq_nil_iff.1 hrest)]
      rfl
    rw [usageArgs, if_pos harg, hname, usageArgs_last]
    simp [spaced, String.append_assoc]
  | cons name rest ih =>
    obtain ⟨t, rfl⟩ := Nat.exists_eq_succ_of_ne_zero (Nat.ne_zero_of_lt ht)
    rw [List.mem_cons, not_or] at hlast
    have hget : pos.names[i]? = some name := by
      rw [← List.head?_drop, hrest, List.head?_cons]
    have hname : b.nameForPosition pos i = name := by
      rw [hb.nameForPosition, Positions.nameForPosition, List.getD_eq_getElem?_getD, hget]
      rfl
    have hdrop : pos.names.drop (i + 1) = rest := by
      rw [← List.tail_drop, hrest, List.tail_cons]
    rw [usageArgs, if_pos harg, hname,
      ih hdrop hlast.2 (Nat.lt_of_succ_lt_succ ht) (Ne.symm hlast.1)]
    simp [spaced, String.append_assoc]

/-- **The usage line** lists the positions. -/
theorem makeUsageString_eq (hb : b.Positional) (programName : String)
    (flagDesc : OptionsDescription V) (hflags : 0 < flagDesc.options.length)
    (hlast : pos.trailing ≠ "" → pos.trailing ∉ pos.names)
    (hlen : pos.names.length < unsignedMax) {all : List String}
    (hall : all = if pos.trailing = "" then [] else [pos.trailing]) :
    makeUsageString b programName flagDesc pos =
      "usage: " ++ programName ++ " [flags]" ++ spaced (pos.names ++ all) ++
        String.join (all.map fun name ↦ " [" ++ name ++ "...]") ++ "\n" ++ b.print flagDesc := by
  have hcount := hb.maxTotalCount pos
  simp only [makeUsageString, if_pos hflags]
  congr 2
  by_cases htrailing : pos.trailing = ""
  · rw [Positions.maxTotalCount, if_pos htrailing] at hcount
    have hnames : (List.range pos.names.length).map (b.nameForPosition pos) = pos.names := by
      refine List.ext_getElem (by simp) fun i hi hi' ↦ ?_
      simp [hb.nameForPosition, Positions.nameForPosition, hi']
    rw [hcount, if_neg (Nat.ne_of_lt hlen), ← List.foldl_map (f := b.nameForPosition pos)
      (g := fun usage name ↦ usage ++ " " ++ name), hnames, foldl_spaced, hall, if_pos htrailing]
    simp [String.append_assoc]
  · rw [Positions.maxTotalCount, if_neg htrailing] at hcount
    have hname : b.nameForPosition pos (unsignedMax - 1) = pos.trailing := by
      rw [hb.nameForPosition, Positions.nameForPosition, List.getD_eq_getElem?_getD,
        List.getElem?_eq_none (Nat.le_sub_one_of_lt hlen)]
      rfl
    rw [hcount, if_pos rfl, hname,
      usageArgs_eq hb List.drop_zero (hlast htrailing) hlen (Ne.symm htrailing), hall,
      if_neg htrailing]
    simp [spaced_append, String.append_assoc]

end

/-! ### What is declared -/

section

variable {b : Boost V Positions M} {f : FlagSet V Positions} {ds : List (Declaration V)}

namespace FlagSet

/-- The positions of the arguments that were declared. -/
theorem pos_foldl_declare (hb : b.Positional)
    (hcount : ∀ a ∈ ds.filterMap Declaration.arg?, -1 ≤ a.2) :
    (ds.foldl (declare b) f).pos =
      ⟨f.pos.names ++ (ds.filterMap Declaration.arg?).flatMap limited,
        ((ds.filterMap Declaration.arg?).filterMap unlimited).getLastD f.pos.trailing⟩ := by
  induction ds generalizing f with
  | nil => simp
  | cons d ds ih =>
    cases d with
    | flag o => exact ih hcount
    | arg o n =>
      have hcons : (Declaration.arg o n :: ds).filterMap Declaration.arg? =
          (o.name, n) :: ds.filterMap Declaration.arg? := rfl
      rw [hcons, List.forall_mem_cons] at hcount
      have hpos : (f.declare b (.arg o n)).pos = f.pos.add o.name n :=
        hb.addPosition f.pos o.name n hcount.1
      rw [List.foldl_cons, ih hcount.2, hcons, hpos, List.flatMap_cons, Positions.add, limited]
      by_cases hn : n = -1
      · have hunlimited : unlimited (o.name, n) = some o.name := if_pos hn
        rw [if_pos hn, if_pos hn, List.filterMap_cons_some hunlimited, List.getLastD_cons,
          List.nil_append]
      · have hunlimited : unlimited (o.name, n) = none := if_neg hn
        rw [if_neg hn, if_neg hn, List.filterMap_cons_none hunlimited, List.append_assoc]

/-- An argument without a limit shares its name with no position that is limited. -/
theorem unlimited_notMem_limited {args : List (String × ℤ)} (hnames : (args.map Prod.fst).Nodup)
    {last : String} (hlast : last ∈ args.filterMap unlimited) : last ∉ args.flatMap limited := by
  intro hmem
  obtain ⟨a, ha, hua⟩ := List.mem_filterMap.1 hlast
  obtain ⟨a', ha', hla'⟩ := List.mem_flatMap.1 hmem
  simp only [unlimited] at hua
  simp only [limited] at hla'
  split at hua
  next hone =>
    split at hla'
    · cases hla'
    next hmany =>
      have hname : a'.1 = a.1 :=
        (List.eq_of_mem_replicate hla').symm.trans (Option.some.inj hua).symm
      exact hmany (List.inj_on_of_nodup_map hnames ha' ha hname ▸ hone)
  next => cases hua

/-- **The help message.** For any flags and arguments with distinct names, of which at most one has
no limit, a command line that asks for help is answered by the program name, each limited position
in the order of declaration, the argument without a limit, and the flags. -/
theorem help_message (hb : b.Positional) {prog program : String} {argv : List String}
    {vars vars' : M} {args : List (String × ℤ)} (hargs : ds.filterMap Declaration.arg? = args)
    (hcount : ∀ a ∈ args, -1 ≤ a.2) (hnames : (args.map Prod.fst).Nodup)
    (hempty : ∀ a ∈ args, a.1 ≠ "") (hone : (args.filterMap unlimited).length ≤ 1)
    (hlen : (args.flatMap limited).length < unsignedMax)
    (hf : ds.foldl (declare b) (new prog .empty) = f)
    (hargv : argv.head? = some program)
    (hstore : b.store (f.addFlag (help b)).allOptions f.pos argv vars = (vars', none))
    (hhelp : 0 < b.count vars' "help") :
    f.parse b argv vars = .ok ⟨f.addFlag (help b), vars',
      some (.warn ("usage: " ++ b.stem program ++ " [flags]" ++
        spaced (args.flatMap limited ++ args.filterMap unlimited) ++
        String.join ((args.filterMap unlimited).map fun name ↦ " [" ++ name ++ "...]") ++ "\n" ++
        b.print (f.addFlag (help b)).flags)), .returned false⟩ := by
  have hpos : f.pos = ⟨args.flatMap limited, (args.filterMap unlimited).getLastD ""⟩ := by
    rw [← hf, pos_foldl_declare hb (hargs ▸ hcount), hargs]
    rfl
  have hall : args.filterMap unlimited = if f.pos.trailing = "" then [] else [f.pos.trailing] := by
    rw [hpos]
    match hunlimited : args.filterMap unlimited with
    | [] => rfl
    | [last] =>
      have hne : last ≠ "" := by
        obtain ⟨a, ha, hua⟩ := List.mem_filterMap.1 (hunlimited ▸ List.mem_cons_self)
        simp only [unlimited] at hua
        split at hua
        · exact Option.some.inj hua ▸ hempty a ha
        · cases hua
      exact (if_neg hne).symm
    | _ :: _ :: _ => simp [hunlimited] at hone
  have hread : readAt argv 0 = .ok program := by
    rw [List.head?_eq_getElem?] at hargv
    exact readAt_of_getElem? hargv
  have hstore' : b.store (f.addFlag (help b)).allOptions (f.addFlag (help b)).pos argv vars =
      (vars', none) := hstore
  have hflags : 0 < (f.addFlag (help b)).flags.options.length := by
    simp [addFlag, OptionsDescription.addOption]
  have hlast : f.pos.trailing ≠ "" → f.pos.trailing ∉ f.pos.names := fun hne ↦ by
    rw [if_neg hne] at hall
    rw [hpos] at hall ⊢
    exact unlimited_notMem_limited hnames (hall ▸ List.mem_cons_self)
  have husage := makeUsageString_eq hb (b.stem program) (f.addFlag (help b)).flags hflags hlast
    (by rw [hpos]; exact hlen) hall
  rw [parse, hstore']
  simp only [if_pos hhelp, hread, ok_bind]
  rw [show (f.addFlag (help b)).pos = f.pos from rfl, husage, hpos]

end FlagSet

end

namespace FlagSet

/-- Boost, with variables maps that only know whether help was asked for. -/
def helpBoost : Boost Unit Positions Bool where
  untypedValue := ()
  addPosition := Positions.add
  maxTotalCount := Positions.maxTotalCount
  nameForPosition := Positions.nameForPosition
  print d := d.caption
  stem p := p
  store _ _ argv _ := (decide ("--help" ∈ argv), none)
  count vars _ := if vars then 1 else 0
  notify vars := (vars, none)

/-- An argument without a limit is listed behind one that is declared later. -/
theorem help_message_rest : ∃ f r,
    [.flag ⟨"verbose", (), ""⟩, .arg ⟨"rest", (), ""⟩ (-1), .arg ⟨"in", (), ""⟩ 2].foldl
      (declare helpBoost) (new "prog" .empty) = f ∧
    f.parse helpBoost ["prog", "--help"] false = .ok r ∧
    r.log = some (.warn ("usage: " ++ "prog" ++ " [flags]" ++ spaced ["in", "in", "rest"] ++
      String.join [" [" ++ "rest" ++ "...]"] ++ "\n" ++ f.flags.caption)) := by
  have hb : helpBoost.Positional := ⟨fun _ _ _ _ ↦ rfl, fun _ ↦ rfl, fun _ _ ↦ rfl⟩
  have hargs : [.flag ⟨"verbose", (), ""⟩, .arg ⟨"rest", (), ""⟩ (-1),
      .arg ⟨"in", (), ""⟩ 2].filterMap Declaration.arg? = [("rest", -1), ("in", 2)] := rfl
  have hargv : ["prog", "--help"].head? = some "prog" := rfl
  obtain ⟨f, hf⟩ : ∃ f, [.flag ⟨"verbose", (), ""⟩, .arg ⟨"rest", (), ""⟩ (-1),
    .arg ⟨"in", (), ""⟩ 2].foldl (declare helpBoost) (new "prog" .empty) = f := ⟨_, rfl⟩
  have hstore : helpBoost.store (f.addFlag (help helpBoost)).allOptions f.pos ["prog", "--help"]
      false = (true, none) := rfl
  have hparse := help_message hb hargs (by decide) (by decide) (by decide) (by decide) (by decide)
    hf hargv hstore Nat.one_pos
  exact ⟨f, _, hf, hparse, rfl⟩

end FlagSet

end Cppkg.Flag
