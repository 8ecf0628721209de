import Cppkg.Machine

/-!
# Flag sets

`FlagSet` of `flagset.h` and `flagset.cc`, over the parts of Boost.Program_options that it uses
(`Boost`): which command lines are accepted, what a variables map holds and how descriptions are
printed is all a parameter. A call of `parse` may return, with a message or without one, and it may
leave by an exception that is not an `opt::error`.

`parse` declares the option `help` before anything else, in `flags_` itself, and nothing takes the
declaration back. So the flag set after a call does not depend on how the call ended
(`parse_flagSet`), and after `n` calls `help` stands there `n` times (`flags_of_parses`). Boost
looks an option up among all its declarations, and two that match fully make the name ambiguous.
-/

namespace Cppkg.Flag

/-- `opt::option_description`: a name, the semantic of its value, and a text. -/
structure OptionDescription (V : Type) where
  name : String
  semantic : V
  description : String
  deriving DecidableEq, Repr

/-- `opt::options_description`. -/
structure OptionsDescription (V : Type) where
  caption : String
  options : List (OptionDescription V)
  deriving DecidableEq, Repr

namespace OptionsDescription

variable {V : Type}

/-- `add_options()(name, s, description)`: one more declaration. -/
def addOption (d : OptionsDescription V) (o : OptionDescription V) : OptionsDescription V :=
  { d with options := d.options ++ [o] }

/-- `add(desc)`: the declarations of another description. -/
def add (d desc : OptionsDescription V) : OptionsDescription V :=
  { d with options := d.options ++ desc.options }

end OptionsDescription

/-- What a function throws. -/
inductive Thrown where
  /-- An `opt::error`, with its text. -/
  | error (what : String)
  /-- Any other exception. -/
  | other
  deriving DecidableEq, Repr

/-- What `FlagSet` uses of Boost: values (`V`), positions of arguments (`P`), variables maps (`M`).
A function that may throw returns what it leaves in the map, and what it throws. -/
structure Boost (V P M : Type) where
  /-- The semantic of an option without a value. -/
  untypedValue : V
  /-- `positional_options_description::add`. -/
  addPosition : P → String → ℤ → P
  maxTotalCount : P → ℕ
  nameForPosition : P → ℕ → String
  /-- `operator<<` of a description. -/
  print : OptionsDescription V → String
  /-- `filesystem::path(p).stem()`. -/
  stem : String → String
  /-- `store(command_line_parser(argc, argv).options(desc).positional(pos).run(), vars)`. -/
  store : OptionsDescription V → P → List String → M → M × Option Thrown
  count : M → String → ℕ
  notify : M → M × Option Thrown

/-- `FlagSet`. -/
structure FlagSet (V P : Type) where
  /-- `flags_`. -/
  flags : OptionsDescription V
  /-- `args_`. -/
  args : OptionsDescription V
  /-- `pos_`. -/
  pos : P
  deriving DecidableEq, Repr

/-- A message to the logger. -/
inductive Message where
  | warn (text : String)
  | error (text : String)
  deriving DecidableEq, Repr

/-- How a call ends. -/
inductive Outcome where
  | returned (b : Bool)
  | threw
  deriving DecidableEq, Repr

/-- What a call leaves behind. -/
structure Parsed (V P M : Type) where
  flagSet : FlagSet V P
  vars : M
  log : Option Message
  outcome : Outcome
  deriving DecidableEq, Repr

/-- A call of `parse`. -/
structure Call (M : Type) where
  argv : List String
  vars : M

/-- `std::numeric_limits<unsigned>::max()`. -/
def unsignedMax : ℕ := 4294967295

variable {V P M : Type} (b : Boost V P M)

/-- The loop over the positions when there is no limit to the arguments: the last name printed, and
the text. The name it waits for is that of position `max() - 1`, so it ends by then. -/
def usageArgs (pos : P) (last : String) : ℕ → ℕ → String → String → String × String
  | 0, _, arg, usage => (arg, usage)
  | t + 1, i, arg, usage =>
    if arg ≠ last then
      let arg := b.nameForPosition pos i
      usageArgs pos last t (i + 1) arg (usage ++ " " ++ arg)
    else (arg, usage)

/-- `make_usage_string`. -/
def makeUsageString (programName : String) (flagDesc : OptionsDescription V) (pos : P) : String :=
  let usage := "usage: " ++ programName ++ " "
  let usage := if 0 < flagDesc.options.length then usage ++ "[flags]" else usage
  let n := b.maxTotalCount pos
  let usage :=
    if n = unsignedMax then
      let last := b.nameForPosition pos (unsignedMax - 1)
      let r := usageArgs b pos last unsignedMax 0 "" usage
      r.2 ++ " [" ++ r.1 ++ "...]"
    else (List.range n).foldl (fun usage i ↦ usage ++ " " ++ b.nameForPosition pos i) usage
  usage ++ "\n" ++ b.print flagDesc

namespace FlagSet

/-- The constructor. -/
def new (prog : String) (pos : P) : FlagSet V P where
  flags := ⟨prog ++ " flags", []⟩
  args := ⟨prog ++ " arguments", []⟩
  pos := pos

/-- `add_flags()(name, s, description)`. -/
def addFlag (f : FlagSet V P) (o : OptionDescription V) : FlagSet V P :=
  { f with flags := f.flags.addOption o }

/-- `add_arg`. -/
def addArg (f : FlagSet V P) (o : OptionDescription V) (maxcount : ℤ) : FlagSet V P :=
  { f with
    args := f.args.addOption o
    pos := b.addPosition f.pos o.name maxcount }

/-- The declaration of `help`. -/
def help : OptionDescription V := ⟨"help", b.untypedValue, "Display help message"⟩

/-- `all_options`: what a command line is parsed against. -/
def allOptions (f : FlagSet V P) : OptionsDescription V :=
  ((OptionsDescription.mk "" []).add f.flags).add f.args

/-- `parse`. The program name is read for the help message only; reading it is undefined when there
are no arguments at all. -/
def parse (f : FlagSet V P) (argv : List String) (vars : M) : Except Fault (Parsed V P M) :=
  let f := f.addFlag (help b)
  match b.store f.allOptions f.pos argv vars with
  | (vars, some (.error what)) => .ok ⟨f, vars, some (.error what), .returned false⟩
  | (vars, some .other) => .ok ⟨f, vars, none, .threw⟩
  | (vars, none) =>
    if 0 < b.count vars "help" then do
      let program ← readAt argv 0
      .ok ⟨f, vars, some (.warn (makeUsageString b (b.stem program) f.flags f.pos)),
        .returned false⟩
    else
      match b.notify vars with
      | (vars, some (.error what)) => .ok ⟨f, vars, some (.error what), .returned false⟩
      | (vars, some .other) => .ok ⟨f, vars, none, .threw⟩
      | (vars, none) => .ok ⟨f, vars, none, .returned true⟩

/-- Calls of `parse` one after the other, on one flag set. -/
def parses : FlagSet V P → List (Call M) → Except Fault (List (Parsed V P M))
  | _, [] => .ok []
  | f, c :: calls => do
    let r ← f.parse b c.argv c.vars
    let rs ← parses r.flagSet calls
    .ok (r :: rs)

/-! ### What is to hold -/

/-- The names declared are distinct, and none of them is `help`. -/
def Distinct (f : FlagSet V P) : Prop :=
  (f.allOptions.options.map (·.name)).Nodup ∧ "help" ∉ f.allOptions.options.map (·.name)

/-- After each call the flags are those after the first call, with `help` once, and each call was
parsed against what the first call was parsed against. -/
def Repeatable (rs : List (Parsed V P M)) : Prop :=
  ∀ first ∈ rs.head?, ∀ r ∈ rs,
    r.flagSet.flags = first.flagSet.flags ∧
      r.flagSet.flags.options.countP (fun o ↦ o.name = "help") = 1 ∧
      r.flagSet.allOptions = first.flagSet.allOptions

/-! ### Every call -/

variable {b} {f : FlagSet V P} {argv : List String} {vars : M} {r : Parsed V P M}
  {calls : List (Call M)} {rs : List (Parsed V P M)}

/-- **One call.** However it ends, the call has declared `help`. A call that returns true has logged
nothing, and one that returns false has logged why. -/
theorem parse_spec (h : f.parse b argv vars = .ok r) :
    r.flagSet = f.addFlag (help b) ∧
      (r.outcome = .returned true → r.log = none) ∧
      (r.outcome = .returned false → r.log ≠ none) := by
  rw [parse] at h
  split at h
  · obtain rfl := Except.ok.inj h
    simp
  · obtain rfl := Except.ok.inj h
    simp
  · split at h
    · obtain ⟨program, -, h⟩ := exists_of_bind h
      obtain rfl := Except.ok.inj h
      simp
    · split at h
      all_goals
        obtain rfl := Except.ok.inj h
        simp

theorem parses_cons {c : Call M} (h : parses b f (c :: calls) = .ok rs) :
    ∃ r rs', f.parse b c.argv c.vars = .ok r ∧ parses b r.flagSet calls = .ok rs' ∧
      rs = r :: rs' := by
  obtain ⟨r, hr, h⟩ := exists_of_bind h
  obtain ⟨rs', hrs, h⟩ := exists_of_bind h
  exact ⟨r, rs', hr, hrs, (Except.ok.inj h).symm⟩

theorem length_of_parses (h : parses b f calls = .ok rs) : rs.length = calls.length := by
  induction calls generalizing f rs with
  | nil =>
    obtain rfl := Except.ok.inj h
    rfl
  | cons c calls ih =>
    obtain ⟨r, rs', -, hrs, rfl⟩ := parses_cons h
    simp [ih hrs]

/-- **Every call.** Each call leaves one more declaration of `help` behind. The induction is on the
calls, from the first. -/
theorem flags_of_parses (h : parses b f calls = .ok rs) (k : ℕ) (hk : rs[k]? = some r) :
    r.flagSet.flags.options = f.flags.options ++ List.replicate (k + 1) (help b) := by
  induction calls generalizing f rs k with
  | nil =>
    obtain rfl := Except.ok.inj h
    simp at hk
  | cons c calls ih =>
    obtain ⟨r₀, rs', hr, hrs, rfl⟩ := parses_cons h
    obtain ⟨hset, -⟩ := parse_spec hr
    cases k with
    | zero =>
      obtain rfl := Option.some.inj hk
      rw [hset]
      rfl
    | succ k =>
      rw [ih hrs k hk, hset]
      simp [addFlag, OptionsDescription.addOption, List.replicate_succ]

/-- The declarations of `help` after the call number `k + 1`. -/
theorem countP_help_of_parses (hf : f.Distinct) (h : parses b f calls = .ok rs) (k : ℕ)
    (hk : rs[k]? = some r) :
    r.flagSet.flags.options.countP (fun o ↦ o.name = "help") = k + 1 := by
  have hnone : f.flags.options.countP (fun o ↦ o.name = "help") = 0 := by
    refine List.countP_eq_zero.2 fun o ho hname ↦ hf.2 (List.mem_map.2 ⟨o, ?_, ?_⟩)
    · exact List.mem_append_left _ ho
    · exact of_decide_eq_true hname
  rw [flags_of_parses h k hk, List.countP_append, hnone, List.countP_replicate]
  simp [help]

/-- **Parsing again.** A flag set can be parsed repeatedly, in the sense that every call leaves and
uses the declarations of the first, if and only if there is at most one call. -/
theorem repeatable_iff (hf : f.Distinct) (h : parses b f calls = .ok rs) :
    Repeatable rs ↔ calls.length ≤ 1 := by
  rw [← length_of_parses h]
  constructor
  · intro hrep
    by_contra hlt
    have h₁ : 1 < rs.length := by omega
    -- the second call leaves `help` twice
    have hsecond := countP_help_of_parses hf h 1 (List.getElem?_eq_getElem h₁)
    have hfirst : rs[0] ∈ rs.head? := by
      rw [List.head?_eq_getElem?, List.getElem?_eq_getElem (by omega)]
      rfl
    obtain ⟨-, hone, -⟩ := hrep rs[0] hfirst rs[1] (List.getElem_mem h₁)
    omega
  · intro hle first hfirst r hr
    obtain ⟨k, hk⟩ := List.mem_iff_getElem?.1 hr
    have hlt : k < rs.length := (List.getElem?_eq_some_iff.1 hk).1
    obtain rfl : k = 0 := by omega
    have heq : r = first := by
      rw [List.head?_eq_getElem?] at hfirst
      exact Option.some.inj (hk.symm.trans hfirst)
    exact ⟨by rw [heq], countP_help_of_parses hf h 0 hk, by rw [heq]⟩

/-- Boost, on command lines without options. -/
def plainBoost : Boost Unit Unit Unit where
  untypedValue := ()
  addPosition _ _ _ := ()
  maxTotalCount _ := 0
  nameForPosition _ _ := ""
  print _ := ""
  stem p := p
  store _ _ _ vars := (vars, none)
  count _ _ := 0
  notify vars := (vars, none)

/-- A flag and an argument. -/
def reader : FlagSet Unit Unit :=
  ((new "reader" ()).addFlag ⟨"verbose", (), "say more"⟩).addArg plainBoost
    ⟨"path", (), "the file to read"⟩ 1

theorem distinct_reader : reader.Distinct := by
  simp [Distinct, reader, new, addFlag, addArg, allOptions, OptionsDescription.add,
    OptionsDescription.addOption]

/-- One call. -/
theorem repeatable_iff_one : ∃ rs,
    parses plainBoost reader [⟨["reader", "notes"], ()⟩] = .ok rs ∧
      (Repeatable rs ↔ [Call.mk ["reader", "notes"] ()].length ≤ 1) :=
  ⟨_, rfl, repeatable_iff distinct_reader (b := plainBoost) rfl⟩

/-- **Help twice.** After two calls, each of them successful, `help` is declared twice. -/
theorem not_repeatable : ¬ ∀ (f : FlagSet Unit Unit) (calls : List (Call Unit))
    (rs : List (Parsed Unit Unit Unit)), f.Distinct → parses plainBoost f calls = .ok rs →
      Repeatable rs := by
  intro hall
  have hrep := hall (new "program" ()) [⟨["program"], ()⟩, ⟨["program"], ()⟩] _
    (by simp [Distinct, new, allOptions, OptionsDescription.add]) rfl
  obtain ⟨-, hone, -⟩ := hrep _ rfl _ (List.mem_cons_of_mem _ List.mem_cons_self)
  exact absurd hone (by decide)

end FlagSet

end Cppkg.Flag
