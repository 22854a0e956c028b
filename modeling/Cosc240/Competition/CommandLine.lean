import Mathlib.Algebra.GroupWithZero.Nat
import Mathlib.Data.List.Basic

/-!
# The command line of `cosc240_a4.sh`

`parse_params` (cosc240_a4.sh:364–457) takes options, each in one of its spellings, up to the first
word that does not look like one. The rest of the words are the algorithms.

- `Params` and `defaults`: the variables that it sets, with their defaults.
- `classify` and `parseOptions`: the branches of the `case`, by the word, and the loop. `Flag` and
  `Setting` are the options without and with a value; `Outcome` is how the loop ends.
- `isInteger`, `arithmetic`, `isZero`, `realpaths`, `checkParams`: what is done behind the loop.
  Digits with a zero in front are octal in an arithmetic expression of the shell, and all are in 64
  bits.
- `FileSystem`: what the function asks of the file system. It is a parameter.
- `Spelled`, `Stops`, `Reads`: words that spell options, how the loop ends with what comes behind
  them, and what the options say about the variables. These are stated without the loop.
- `Checked`: what the rest of the script relies on.

Main results:

- `parseOptions_iff`: a command line ends the loop in some way if and only if it consists of words
  that spell options, and of others that end it in this way.
- `parseParams_eq_done_iff`: the script starts if and only if the command line consists of options
  and algorithms and passes the checks. The value that counts for a setting is the last one given.
-/

namespace Cosc240

namespace CommandLine

/-! ## The script -/

/-- The variables that the loop of `parse_params` sets. -/
structure Params where
  debug : Bool
  /-- `set -x`. -/
  verbose : Bool
  noColor : Bool
  simulator : String
  schedules : String
  collect : Bool
  solutions : String
  submissions : String
  single : Bool
  generate : Bool
  generateAnswers : Bool
  output : String
  timeout : String
  marks : String
  competition : String
  deriving DecidableEq, Repr

/-- The default values. -/
def defaults : Params where
  debug := false
  verbose := false
  noColor := false
  simulator := "simulator.c"
  schedules := "schedules"
  collect := false
  solutions := "algorithms"
  submissions := "submissions"
  single := false
  generate := true
  generateAnswers := false
  output := "output"
  timeout := "1m"
  marks := "0"
  competition := "0"

/-- The options without a value. -/
inductive Flag where
  | verbose
  | noColor
  | debug
  | single
  | noGenerate
  | generateAnswers
  | collect
  deriving DecidableEq, Repr

/-- The options with a value. -/
inductive Setting where
  | simulator
  | schedules
  | solutions
  | submissions
  | output
  | timeout
  | marks
  | competition
  deriving DecidableEq, Repr

/-- What the `case` of the loop does with a flag. -/
def Flag.set (params : Params) : Flag → Params
  | verbose => { params with verbose := true }
  | noColor => { params with noColor := true }
  | debug => { params with debug := true }
  | single => { params with single := true }
  | noGenerate => { params with generate := false }
  | generateAnswers => { params with generateAnswers := true }
  | collect => { params with collect := true }

/-- What the `case` of the loop does with a value. -/
def Setting.set (params : Params) (value : String) : Setting → Params
  | simulator => { params with simulator := value }
  | schedules => { params with schedules := value }
  | solutions => { params with solutions := value }
  | submissions => { params with submissions := value }
  | output => { params with output := value }
  | timeout => { params with timeout := value }
  | marks => { params with marks := value }
  | competition => { params with competition := value }

/-- The branches of the `case`. -/
inductive Word where
  | help
  | flag (f : Flag)
  | setting (s : Setting)
  | unknown
  | other
  deriving DecidableEq, Repr

/-- The pattern `-?*`. -/
def looksLikeOption (word : String) : Bool :=
  match word.toList with
  | '-' :: _ :: _ => true
  | _ => false

/-- The branch that a word takes. -/
def classify (word : String) : Word :=
  match word with
  | "-h" | "--help" => .help
  | "-v" | "--verbose" => .flag .verbose
  | "--no-color" => .flag .noColor
  | "-d" | "--debug" => .flag .debug
  | "-1" | "--single" => .flag .single
  | "-n" | "--no-generate" => .flag .noGenerate
  | "-a" | "--generate-answers" => .flag .generateAnswers
  | "-k" | "--collect" => .flag .collect
  | "-s" | "--simulator" => .setting .simulator
  | "-e" | "--schedules" => .setting .schedules
  | "-l" | "--solutions" => .setting .solutions
  | "-u" | "--submissions" => .setting .submissions
  | "-o" | "--output" => .setting .output
  | "-t" | "--timeout" => .setting .timeout
  | "-m" | "--marks" => .setting .marks
  | "-c" | "--competition" => .setting .competition
  | _ => if looksLikeOption word then .unknown else .other

/-- How the loop ends. -/
inductive Outcome where
  /-- `break`, with the words that are left. -/
  | done (params : Params) (args : List String)
  /-- `usage && exit`. -/
  | usage
  /-- `usage_die`. -/
  | die (message : String)
  /-- A `shift` without a word ends the script, because of `set -e`. -/
  | failed
  deriving DecidableEq, Repr

/-- The loop of `parse_params`. -/
def parseOptions : List String → Params → Outcome
  | [], params => .done params []
  | word :: rest, params =>
    match classify word with
    | .help => .usage
    | .flag f => parseOptions rest (f.set params)
    | .setting s =>
      match rest with
      | [] => .failed
      | value :: rest => parseOptions rest (s.set params value)
    | .unknown => .die ("Unknown option: " ++ word)
    | .other => .done params (word :: rest)

/-- What `parse_params` asks of the file system. -/
structure FileSystem where
  /-- Whether `mkdir -p` succeeds. -/
  mkdir : String → Bool
  /-- `realpath`, when the directories are there. -/
  realpath : String → Option String
  /-- `[[ -f ]]`. -/
  isRegular : String → Bool

/-- `^[0-9]+$`. -/
def isInteger (value : String) : Bool := !value.toList.isEmpty && value.toList.all Char.isDigit

/-- The value of digits in an arithmetic expression, in 64 bits. With a zero in front they are
octal, and then 8 and 9 are an error. -/
def arithmetic (digits : List Char) : Option Nat :=
  match digits with
  | '0' :: octal =>
    if octal.all fun c => c ≠ '8' && c ≠ '9' then some (Nat.ofDigitChars 8 octal 0 % 2 ^ 64)
    else none
  | _ => some (Nat.ofDigitChars 10 digits 0 % 2 ^ 64)

/-- `[[ 0 -eq value ]]`. -/
def isZero (value : String) : Bool := arithmetic value.toList == some 0

/-- The paths are made absolute. -/
def realpaths (fs : FileSystem) (params : Params) : Option Params := do
  let simulator ← fs.realpath params.simulator
  let schedules ← fs.realpath params.schedules
  let solutions ← fs.realpath params.solutions
  let submissions ← fs.realpath params.submissions
  let output ← fs.realpath params.output
  return { params with simulator, schedules, solutions, submissions, output }

/-- What `parse_params` does behind the loop. -/
def checkParams (fs : FileSystem) (params : Params) (args : List String) : Outcome :=
  if fs.mkdir params.output && fs.mkdir params.schedules then
    match realpaths fs params with
    | none => .failed
    | some params =>
      if !fs.isRegular params.simulator then
        .die s!"simulator must be a regular tgz file ({params.simulator} is not)"
      else if !isInteger params.marks then
        .die s!"marks must be an integer ({params.marks} is not)"
      else if !isInteger params.competition then
        .die s!"competition must be an integer ({params.competition} is not)"
      else if isZero params.competition && args.isEmpty then
        .die "At least one algorithm or the competition is required"
      else .done params args
  else .failed

/-- `parse_params`. -/
def parseParams (fs : FileSystem) (argv : List String) : Outcome :=
  match parseOptions argv defaults with
  | .done params args => checkParams fs params args
  | outcome => outcome

/-! ## What it is for -/

def Flag.spellings : Flag → List String
  | verbose => ["-v", "--verbose"]
  | noColor => ["--no-color"]
  | debug => ["-d", "--debug"]
  | single => ["-1", "--single"]
  | noGenerate => ["-n", "--no-generate"]
  | generateAnswers => ["-a", "--generate-answers"]
  | collect => ["-k", "--collect"]

def Setting.spellings : Setting → List String
  | simulator => ["-s", "--simulator"]
  | schedules => ["-e", "--schedules"]
  | solutions => ["-l", "--solutions"]
  | submissions => ["-u", "--submissions"]
  | output => ["-o", "--output"]
  | timeout => ["-t", "--timeout"]
  | marks => ["-m", "--marks"]
  | competition => ["-c", "--competition"]

def helpSpellings : List String := ["-h", "--help"]

/-- All options. -/
def knownWords : List String :=
  helpSpellings ++ ([Flag.verbose, .noColor, .debug, .single, .noGenerate, .generateAnswers,
    .collect].flatMap Flag.spellings ++ [Setting.simulator, .schedules, .solutions, .submissions,
    .output, .timeout, .marks, .competition].flatMap Setting.spellings)

/-- An option, with its value. -/
inductive Opt where
  | flag (f : Flag)
  | setting (s : Setting) (value : String)
  deriving DecidableEq, Repr

/-- Words that spell options. -/
inductive Spelled : List String → List Opt → Prop
  | nil : Spelled [] []
  | flag {word : String} {f : Flag} {words : List String} {opts : List Opt}
      (hword : word ∈ f.spellings) (h : Spelled words opts) :
      Spelled (word :: words) (.flag f :: opts)
  | setting {word value : String} {s : Setting} {words : List String} {opts : List Opt}
      (hword : word ∈ s.spellings) (h : Spelled words opts) :
      Spelled (word :: value :: words) (.setting s value :: opts)

/-- What the loop does with an option. -/
def Opt.set (params : Params) : Opt → Params
  | flag f => f.set params
  | setting s value => s.set params value

/-- The value that an option gives a setting. -/
def Opt.valueOf (s : Setting) : Opt → Option String
  | flag _ => none
  | setting s' value => if s' = s then some value else none

def Flag.isSet (params : Params) : Flag → Bool
  | verbose => params.verbose
  | noColor => params.noColor
  | debug => params.debug
  | single => params.single
  | noGenerate => !params.generate
  | generateAnswers => params.generateAnswers
  | collect => params.collect

def Setting.get (params : Params) : Setting → String
  | simulator => params.simulator
  | schedules => params.schedules
  | solutions => params.solutions
  | submissions => params.submissions
  | output => params.output
  | timeout => params.timeout
  | marks => params.marks
  | competition => params.competition

/-- The variables are those before the options, but for what these say: a flag is set, and of
the values that a setting is given the last one counts. -/
structure Reads (before after : Params) (opts : List Opt) : Prop where
  flag : ∀ f : Flag, f.isSet after = (f.isSet before || opts.contains (.flag f))
  setting : ∀ s : Setting,
    s.get after = ((opts.filterMap (Opt.valueOf s)).getLast?).getD (s.get before)

/-- How the loop ends with what comes behind the options. -/
inductive Stops (params : Params) : List String → Outcome → Prop
  | done {args : List String} (h : ∀ word ∈ args.head?, looksLikeOption word = false) :
      Stops params args (.done params args)
  | usage {word : String} {rest : List String} (h : word ∈ helpSpellings) :
      Stops params (word :: rest) .usage
  | die {word : String} {rest : List String} (h : word ∉ knownWords)
      (hlooks : looksLikeOption word = true) :
      Stops params (word :: rest) (.die ("Unknown option: " ++ word))
  /-- The value is missing. -/
  | failed {word : String} {s : Setting} (h : word ∈ s.spellings) :
      Stops params [word] .failed

/-! ## One word -/

theorem classify_of_mem_help {word : String} (h : word ∈ helpSpellings) :
    classify word = .help := by
  simp only [helpSpellings, List.mem_cons, List.not_mem_nil, or_false] at h
  rcases h with rfl | rfl <;> rfl

/-- Each spelling of a flag is that flag. -/
theorem classify_of_mem_flag {word : String} {f : Flag} (h : word ∈ f.spellings) :
    classify word = .flag f := by
  cases f <;> simp only [Flag.spellings, List.mem_cons, List.not_mem_nil, or_false] at h <;>
    rcases h with rfl | rfl <;> rfl

/-- Each spelling of an option with a value is that option. -/
theorem classify_of_mem_setting {word : String} {s : Setting} (h : word ∈ s.spellings) :
    classify word = .setting s := by
  cases s <;> simp only [Setting.spellings, List.mem_cons, List.not_mem_nil, or_false] at h <;>
    rcases h with rfl | rfl <;> rfl

/-- What is none of the spellings is an error if it looks like an option, and ends the options
otherwise. -/
theorem classify_of_not_mem {word : String} (h : word ∉ knownWords) :
    classify word = if looksLikeOption word then .unknown else .other := by
  unfold classify
  split <;> first | rfl | exact absurd (by decide) h

/-- What kinds of words there are. -/
inductive WordCase (word : String) : Word → Prop
  | help (h : word ∈ helpSpellings) : WordCase word .help
  | flag {f : Flag} (h : word ∈ f.spellings) : WordCase word (.flag f)
  | setting {s : Setting} (h : word ∈ s.spellings) : WordCase word (.setting s)
  | unknown (h : word ∉ knownWords) (hlooks : looksLikeOption word = true) :
      WordCase word .unknown
  | other (hlooks : looksLikeOption word = false) : WordCase word .other

/-- The `case` of `parse_params` as a relation between words and branches. -/
theorem wordCase_classify (word : String) : WordCase word (classify word) := by
  by_cases hknown : word ∈ knownWords
  · rcases List.mem_append.mp hknown with h | h
    · rw [classify_of_mem_help h]
      exact .help h
    · rcases List.mem_append.mp h with h | h
      · obtain ⟨f, -, hf⟩ := List.mem_flatMap.mp h
        rw [classify_of_mem_flag hf]
        exact .flag hf
      · obtain ⟨s, -, hs⟩ := List.mem_flatMap.mp h
        rw [classify_of_mem_setting hs]
        exact .setting hs
  · rw [classify_of_not_mem hknown]
    by_cases hlooks : looksLikeOption word = true
    · rw [if_pos hlooks]
      exact .unknown hknown hlooks
    · rw [if_neg hlooks]
      exact .other ((Bool.not_eq_true _).mp hlooks)

/-- Every option looks like one. -/
theorem looksLikeOption_of_mem {word : String} (h : word ∈ knownWords) :
    looksLikeOption word = true :=
  List.all_eq_true.mp (show knownWords.all looksLikeOption = true by rfl) word h

theorem classify_of_looksLikeOption_eq_false {word : String} (h : looksLikeOption word = false) :
    classify word = .other := by
  rw [classify_of_not_mem, h]
  · rfl
  · intro hknown
    rw [looksLikeOption_of_mem hknown] at h
    cases h

theorem classify_of_unknown {word : String} (h : word ∉ knownWords)
    (hlooks : looksLikeOption word = true) : classify word = .unknown := by
  rw [classify_of_not_mem h, if_pos hlooks]

/-! ## The options -/

section Options

variable {words argv : List String} {opts : List Opt} {before after : Params}

/-- The loop goes through words that spell options. -/
theorem Spelled.parseOptions_append (h : Spelled words opts) (rest : List String)
    (params : Params) :
    parseOptions (words ++ rest) params = parseOptions rest (opts.foldl Opt.set params) := by
  induction h generalizing params with
  | nil => rfl
  | flag hword h ih =>
    rw [List.cons_append, parseOptions, classify_of_mem_flag hword]
    exact ih _
  | setting hword h ih =>
    rw [List.cons_append, parseOptions, classify_of_mem_setting hword]
    exact ih _

theorem Stops.parseOptions_eq {params : Params} {rest : List String} {outcome : Outcome}
    (h : Stops params rest outcome) : parseOptions rest params = outcome := by
  cases h with
  | done h =>
    cases rest with
    | nil => rfl
    | cons word rest => rw [parseOptions, classify_of_looksLikeOption_eq_false (h word rfl)]
  | usage h => rw [parseOptions, classify_of_mem_help h]
  | die h hlooks => rw [parseOptions, classify_of_unknown h hlooks]
  | failed h => rw [parseOptions, classify_of_mem_setting h]

/-- Each command line begins with words that spell options, and stops behind them. -/
theorem exists_spelled (argv : List String) (params : Params) :
    ∃ words opts rest, argv = words ++ rest ∧ Spelled words opts ∧
      Stops (opts.foldl Opt.set params) rest (parseOptions argv params) := by
  fun_induction parseOptions argv params with
  | case1 params => exact ⟨[], [], [], rfl, .nil, .done fun _ h => nomatch h⟩
  | case2 word rest params hword =>
    have hcase := wordCase_classify word
    rw [hword] at hcase
    cases hcase with
    | help h => exact ⟨[], [], _, rfl, .nil, .usage h⟩
  | case3 word rest params f hword ih =>
    have hcase := wordCase_classify word
    rw [hword] at hcase
    cases hcase with
    | flag h =>
      obtain ⟨words, opts, rest', rfl, hwords, hstops⟩ := ih
      exact ⟨word :: words, .flag f :: opts, rest', rfl, .flag h hwords, hstops⟩
  | case4 word params s hword =>
    have hcase := wordCase_classify word
    rw [hword] at hcase
    cases hcase with
    | setting h => exact ⟨[], [], _, rfl, .nil, .failed h⟩
  | case5 word params s hword value rest ih =>
    have hcase := wordCase_classify word
    rw [hword] at hcase
    cases hcase with
    | setting h =>
      obtain ⟨words, opts, rest', rfl, hwords, hstops⟩ := ih
      exact ⟨word :: value :: words, .setting s value :: opts, rest', rfl, .setting h hwords,
        hstops⟩
  | case6 word rest params hword =>
    have hcase := wordCase_classify word
    rw [hword] at hcase
    cases hcase with
    | unknown h hlooks => exact ⟨[], [], _, rfl, .nil, .die h hlooks⟩
  | case7 word rest params hword =>
    have hcase := wordCase_classify word
    rw [hword] at hcase
    cases hcase with
    | other hlooks =>
      refine ⟨[], [], _, rfl, .nil, .done ?_⟩
      rintro _ ⟨⟩
      exact hlooks

/-! ## The variables -/

/-- An option sets its own flag, and no other. -/
theorem isSet_set (f : Flag) (params : Params) (o : Opt) :
    f.isSet (o.set params) = (f.isSet params || decide (o = .flag f)) := by
  cases o with
  | flag f' => cases f <;> cases f' <;> simp [Opt.set, Flag.set, Flag.isSet]
  | setting s value => cases f <;> cases s <;> simp [Opt.set, Setting.set, Flag.isSet]

/-- An option with a value sets its own variable, and no other. -/
theorem get_set (s : Setting) (params : Params) (o : Opt) :
    s.get (o.set params) = (o.valueOf s).getD (s.get params) := by
  cases o with
  | flag f => cases s <;> cases f <;> rfl
  | setting s' value => cases s <;> cases s' <;> rfl

theorem reads_foldl (params : Params) (opts : List Opt) :
    Reads params (opts.foldl Opt.set params) opts := by
  induction opts generalizing params with
  | nil => exact ⟨fun f => (Bool.or_false _).symm, fun _ => rfl⟩
  | cons o opts ih =>
    constructor
    · intro f
      rw [List.foldl_cons, (ih _).flag, isSet_set, List.contains_cons, Bool.or_assoc]
      congr 2
      exact decide_eq_decide.mpr eq_comm
    · intro s
      rw [List.foldl_cons, (ih _).setting, get_set, List.filterMap_cons]
      cases o.valueOf s with
      | none => rfl
      | some value =>
        dsimp only
        rw [List.getLast?_cons]
        rfl

/-- The flags and the settings are all there is. -/
theorem Params.eq_of_get {params params' : Params}
    (hflag : ∀ f : Flag, f.isSet params = f.isSet params')
    (hsetting : ∀ s : Setting, s.get params = s.get params') : params = params' := by
  cases params
  cases params'
  rw [Params.mk.injEq]
  exact ⟨hflag .debug, hflag .verbose, hflag .noColor, hsetting .simulator, hsetting .schedules,
    hflag .collect, hsetting .solutions, hsetting .submissions, hflag .single,
    Bool.not_inj (hflag .noGenerate), hflag .generateAnswers, hsetting .output,
    hsetting .timeout, hsetting .marks, hsetting .competition⟩

/-- The variables are determined by what has been read. -/
theorem Reads.eq_foldl (h : Reads before after opts) : after = opts.foldl Opt.set before := by
  refine Params.eq_of_get ?_ ?_
  · intro f
    rw [h.flag, (reads_foldl before opts).flag]
  · intro s
    rw [h.setting, (reads_foldl before opts).setting]

/-- **The options.** A command line ends the loop in some way if and only if it consists of words
that spell options, and of others that end it in this way; the variables are then those that the
options say. -/
theorem parseOptions_iff (argv : List String) (params : Params) (outcome : Outcome) :
    parseOptions argv params = outcome ↔
      ∃ words opts rest after, argv = words ++ rest ∧ Spelled words opts ∧
        Reads params after opts ∧ Stops after rest outcome := by
  constructor
  · rintro rfl
    obtain ⟨words, opts, rest, hargv, hwords, hstops⟩ := exists_spelled argv params
    exact ⟨words, opts, rest, _, hargv, hwords, reads_foldl params opts, hstops⟩
  · rintro ⟨words, opts, rest, after, rfl, hwords, hreads, hstops⟩
    rw [hwords.parseOptions_append, ← hreads.eq_foldl]
    exact hstops.parseOptions_eq

end Options

/-! ## The checks -/

/-- What the rest of the script relies on. -/
structure Checked (fs : FileSystem) (params params' : Params) (args : List String) : Prop where
  output : fs.mkdir params.output = true
  schedules : fs.mkdir params.schedules = true
  paths : realpaths fs params = some params'
  simulator : fs.isRegular params'.simulator = true
  marks : isInteger params'.marks = true
  competition : isInteger params'.competition = true
  /-- There is something to do. -/
  work : isZero params'.competition = true → args ≠ []

/-- The checks behind the loop let exactly what is `Checked` through. -/
theorem checkParams_eq_done_iff {fs : FileSystem} {params params' : Params}
    {args args' : List String} :
    checkParams fs params args = .done params' args' ↔
      args = args' ∧ Checked fs params params' args := by
  unfold checkParams
  constructor
  · intro h
    split at h
    · next hdirs =>
      obtain ⟨houtput, hschedules⟩ := (Bool.and_eq_true _ _).mp hdirs
      split at h
      · cases h
      · next absolute hpaths =>
        split at h
        · cases h
        split at h
        · cases h
        split at h
        · cases h
        split at h
        · cases h
        · next hsimulator hmarks hcompetition hwork =>
          cases h
          simp only [Bool.not_eq_true', Bool.not_eq_false] at hsimulator hmarks hcompetition
          refine ⟨rfl, houtput, hschedules, hpaths, hsimulator, hmarks, hcompetition, ?_⟩
          rintro hzero rfl
          exact hwork (by rw [hzero]; rfl)
    · cases h
  · rintro ⟨rfl, h⟩
    rw [h.output, h.schedules, h.paths]
    dsimp only
    rw [h.simulator, h.marks, h.competition]
    have hwork : ¬ (isZero params'.competition && args.isEmpty) = true := by
      intro hidle
      obtain ⟨hzero, hempty⟩ := (Bool.and_eq_true _ _).mp hidle
      exact h.work hzero (List.isEmpty_iff.mp hempty)
    rw [if_neg hwork]
    rfl

/-- **The script starts** if and only if the command line consists of options and algorithms and
passes the checks. The value that counts for a setting is the last one given. -/
theorem parseParams_eq_done_iff (fs : FileSystem) (argv : List String) (params : Params)
    (args : List String) : parseParams fs argv = .done params args ↔
      ∃ words opts given, argv = words ++ args ∧ Spelled words opts ∧
        (∀ word ∈ args.head?, looksLikeOption word = false) ∧ Reads defaults given opts ∧
        Checked fs given params args := by
  constructor
  · intro h
    obtain ⟨words, opts, rest, given, hargv, hwords, hreads, hstops⟩ :=
      (parseOptions_iff argv defaults _).mp rfl
    rw [parseParams] at h
    generalize parseOptions argv defaults = outcome at h hstops
    cases hstops with
    | done hrest =>
      obtain ⟨rfl, hchecked⟩ := checkParams_eq_done_iff.mp h
      exact ⟨words, opts, given, hargv, hwords, hrest, hreads, hchecked⟩
    | usage _ => cases h
    | die _ _ => cases h
    | failed _ => cases h
  · rintro ⟨words, opts, given, hargv, hwords, hrest, hreads, hchecked⟩
    have hparse := (parseOptions_iff argv defaults (.done given args)).mpr
      ⟨words, opts, args, given, hargv, hwords, hreads, .done hrest⟩
    rw [parseParams, hparse]
    exact checkParams_eq_done_iff.mpr ⟨rfl, hchecked⟩

end CommandLine

end Cosc240
