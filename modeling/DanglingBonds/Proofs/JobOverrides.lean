/-
# Options in place of a job file

Some options of the command line stand for keys of the job file. Whatever the file says and
whichever of these options are given, a command works with the settings, or ends with the error,
that it has without them on the file with the keys set to their values.

One edit of the file is one option that the command line does not give: to set a key and to give an
option, unless it is given already, lead to the same settings. The rest is an induction on the
edits.

* `Job.Edit`, `Job.File.set` : a key with a value, and the file with the key set to it.
* `parameters_set`, `operational_set`, `exploration_set`, `defectScan_set`, `margins_set` : one
  edit.
* `ReplacesKeys` : options that do what edits do.
* `replacesKeys_of_fill` : any number of edits, from one.
* `settings_replaceKeys` : the settings of all commands.
-/
import Mathlib
import DanglingBonds.Command.Settings

namespace DanglingBonds

/-! ## Edits of a job file -/

namespace Job

/-- A key of a job file that an option can replace, with a value. -/
inductive Edit where
  | base (value : ℕ)
  | epsilonR (value : Float)
  | lambdaTF (value : Float)
  | muMinus (value : Float)
  | engine (value : Engine)
  | strategy (value : StrategyName)
  | samples (value : ℕ)
  | seeds (value : ℕ)
  | neighborhood (value : Neighborhood)
  | precision (value : ℕ)

/-- The section and the name of the key. -/
def Edit.key : Edit → String × String
  | base _ => ("simulation", "base")
  | epsilonR _ => ("simulation", "epsilon-r")
  | lambdaTF _ => ("simulation", "lambda-tf")
  | muMinus _ => ("simulation", "mu-minus")
  | engine _ => ("operational", "engine")
  | strategy _ => ("domain", "strategy")
  | samples _ => ("domain", "samples")
  | seeds _ => ("domain", "seeds")
  | neighborhood _ => ("domain", "neighborhood")
  | precision _ => ("stability", "precision")

namespace File

/-- The section of physical parameters; those left out have defaults. -/
def simulationSection (f : File) : Parameters Float :=
  f.simulation.getD default

/-- The section of a gate check, without keys if the file has none. -/
def gateSection (f : File) : GateSection :=
  f.gate.getD ⟨none, none, none, none⟩

/-- The section of an exploration, without keys if the file has none. -/
def domainSection (f : File) : DomainSection :=
  f.domain.getD ⟨none, none, none, none, none, none⟩

/-- The file with a key set to a value, in a section of its own if the file has none. -/
def set (f : File) : Edit → File
  | .base b => { f with simulation := some { f.simulationSection with base := b } }
  | .epsilonR x => { f with simulation := some { f.simulationSection with epsilonR := x } }
  | .lambdaTF x => { f with simulation := some { f.simulationSection with lambdaTF := x } }
  | .muMinus x => { f with simulation := some { f.simulationSection with muMinus := x } }
  | .engine e => { f with gate := some { f.gateSection with engine := some e } }
  | .strategy s => { f with domain := some { f.domainSection with strategy := some s } }
  | .samples k => { f with domain := some { f.domainSection with samples := some k } }
  | .seeds k => { f with domain := some { f.domainSection with seeds := some k } }
  | .neighborhood m => { f with domain := some { f.domainSection with neighborhood := some m } }
  | .precision k => { f with stability := some ⟨some k⟩ }

/-- The file after edits, in order. -/
def edit (f : File) (es : List Edit) : File :=
  es.foldl set f

end File

end Job

open Job (File Edit)

/-! ## Options as edits

For the arguments of each command: its options as edits, those of the job before its own, the
arguments without them, and an option that is filled in unless it is given. -/

namespace JobArguments

/-- The edits that the options for physical parameters stand for. -/
def edits (a : JobArguments) : List Edit :=
  (a.base.map .base).toList ++ (a.epsilonR.map .epsilonR).toList
    ++ (a.lambdaTF.map .lambdaTF).toList ++ (a.muMinus.map .muMinus).toList

/-- The arguments without these options. -/
def bare (a : JobArguments) : JobArguments :=
  { config := a.config }

/-- Gives an option that is not given. -/
def fill (a : JobArguments) : Edit → JobArguments
  | .base b => { a with base := a.base.or (some b) }
  | .epsilonR x => { a with epsilonR := a.epsilonR.or (some x) }
  | .lambdaTF x => { a with lambdaTF := a.lambdaTF.or (some x) }
  | .muMinus x => { a with muMinus := a.muMinus.or (some x) }
  | _ => a

end JobArguments

namespace OperationalArguments

def ownEdits (a : OperationalArguments) : List Edit :=
  (a.engine.map .engine).toList

def edits (a : OperationalArguments) : List Edit :=
  a.job.edits ++ a.ownEdits

def bare (a : OperationalArguments) : OperationalArguments :=
  { a with job := a.job.bare, engine := none }

def fill (a : OperationalArguments) : Edit → OperationalArguments
  | .engine e => { a with engine := a.engine.or (some e) }
  | e => { a with job := a.job.fill e }

end OperationalArguments

namespace DomainArguments

def ownEdits (a : DomainArguments) : List Edit :=
  (a.strategy.map .strategy).toList ++ (a.samples.map .samples).toList
    ++ (a.seeds.map .seeds).toList ++ (a.neighborhood.map .neighborhood).toList

def edits (a : DomainArguments) : List Edit :=
  a.job.edits ++ a.ownEdits

def bare (a : DomainArguments) : DomainArguments :=
  { a with job := a.job.bare, strategy := none, samples := none, seeds := none,
           neighborhood := none }

def fill (a : DomainArguments) : Edit → DomainArguments
  | .strategy s => { a with strategy := a.strategy.or (some s) }
  | .samples k => { a with samples := a.samples.or (some k) }
  | .seeds k => { a with seeds := a.seeds.or (some k) }
  | .neighborhood m => { a with neighborhood := a.neighborhood.or (some m) }
  | e => { a with job := a.job.fill e }

end DomainArguments

namespace StabilityArguments

def ownEdits (a : StabilityArguments) : List Edit :=
  (a.places.map .precision).toList

def edits (a : StabilityArguments) : List Edit :=
  a.job.edits ++ a.ownEdits

def bare (a : StabilityArguments) : StabilityArguments :=
  { a with job := a.job.bare, places := none }

def fill (a : StabilityArguments) : Edit → StabilityArguments
  | .precision k => { a with places := a.places.or (some k) }
  | e => { a with job := a.job.fill e }

end StabilityArguments

/-! ## One edit -/

section OneEdit

variable (f : File)

/-- To set a key in the file and to give its option, unless it is given, lead to the same. -/
theorem parameters_set (a : JobArguments) (e : Edit) :
    (f.set e).parameters a = f.parameters (a.fill e) := by
  cases e with
  | base | epsilonR | lambdaTF | muMinus =>
    simp only [File.parameters, File.set, File.simulationSection, JobArguments.fill,
      Option.getD_some, Option.getD_or]
  | engine | strategy | samples | seeds | neighborhood | precision => rfl

theorem operational_set (a : OperationalArguments) (e : Edit) :
    (f.set e).operational a = f.operational (a.fill e) := by
  cases e with
  | engine e =>
    simp only [File.operational, File.gateOptions, OperationalArguments.fill, Option.or_assoc]
    -- a section that the file lacks reads like one without keys
    obtain ⟨layout, simulation, gate, domain, scan, stability⟩ := f
    cases gate <;> rfl
  | base | epsilonR | lambdaTF | muMinus | strategy | samples | seeds | neighborhood | precision =>
    simp only [File.operational, File.gateOptions, parameters_set]
    rfl

/-- An exploration takes its engine from the file, so it has no option for it. -/
theorem exploration_set (a : DomainArguments) {e : Edit} (he : e.key ≠ ("operational", "engine")) :
    (f.set e).exploration a = f.exploration (a.fill e) := by
  cases e with
  | engine => exact absurd rfl he
  | strategy | samples | seeds | neighborhood =>
    simp only [File.exploration, File.strategy, DomainArguments.fill, Option.or_assoc]
    obtain ⟨layout, simulation, gate, domain, scan, stability⟩ := f
    cases domain <;> rfl
  | base | epsilonR | lambdaTF | muMinus | precision =>
    simp only [File.exploration, File.gateOptions, parameters_set]
    rfl

theorem defectScan_set (a : JobArguments) (e : Edit) :
    (f.set e).defectScan a = f.defectScan (a.fill e) := by
  rw [File.defectScan, parameters_set]
  cases e <;> rfl

theorem margins_set (a : StabilityArguments) (e : Edit) :
    (f.set e).margins a = f.margins (a.fill e) := by
  cases e with
  | precision k =>
    simp only [File.margins, parameters_set, StabilityArguments.fill, Option.or_assoc]
    rfl
  | base | epsilonR | lambdaTF | muMinus | engine | strategy | samples | seeds | neighborhood =>
    simp only [File.margins, parameters_set]
    rfl

end OneEdit

/-! ## Any number of edits -/

section Edits

variable {A R : Type}

/-- Options that stand for edits: the settings are those without the options on the edited file, and
what the file itself says for a key whose option is given does not matter. -/
def ReplacesKeys (settings : File → A → R) (edits : A → List Edit) (bare : A → A) : Prop :=
  ∀ f a, settings f a = settings (f.edit (edits a)) (bare a) ∧
    ∀ e, e.key ∈ (edits a).map Edit.key → settings (f.set e) a = settings f a

variable {settings : File → A → R} {edits : A → List Edit} {bare : A → A} {fill : A → Edit → A}

/-- Edits of a file are options that are not given. -/
theorem settings_edit {es : List Edit}
    (hset : ∀ e ∈ es, ∀ f a, settings (f.set e) a = settings f (fill a e)) (f : File) (a : A) :
    settings (f.edit es) a = settings f (es.foldr (fun e a => fill a e) a) := by
  induction es generalizing f with
  | nil => rfl
  | cons e es ih =>
    -- the first edit is overridden by the others, so its option is filled in last
    calc settings (f.edit (e :: es)) a
        = settings ((f.set e).edit es) a := rfl
      _ = settings (f.set e) (es.foldr (fun e a => fill a e) a) :=
        ih (fun e he => hset e (List.mem_cons_of_mem _ he)) _
      _ = settings f ((e :: es).foldr (fun e a => fill a e) a) :=
        hset e List.mem_cons_self f _

/-- **From one edit to any number.** If setting a key of the options is filling in its option, and
filling in all options of the arguments restores them and changes no given one, then options stand
for edits. -/
theorem replacesKeys_of_fill
    (hset : ∀ f a b e, e.key ∈ (edits b).map Edit.key →
      settings (f.set e) a = settings f (fill a e))
    (hrestored : ∀ a, (edits a).foldr (fun e a => fill a e) (bare a) = a)
    (hgiven : ∀ a e, e.key ∈ (edits a).map Edit.key → fill a e = a) :
    ReplacesKeys settings edits bare := by
  intro f a
  constructor
  · rw [settings_edit (fun e he f a' => hset f a' a e (List.mem_map_of_mem he)), hrestored]
  · intro e he
    rw [hset f a a e he, hgiven a e he]

end Edits

/-! ## The options of each command -/

namespace JobArguments

/-- Filling in the options restores the arguments. -/
theorem foldr_fill_edits (a : JobArguments) : a.edits.foldr (fun e a => a.fill e) a.bare = a := by
  obtain ⟨config, base, epsilonR, lambdaTF, muMinus⟩ := a
  cases base <;> cases epsilonR <;> cases lambdaTF <;> cases muMinus <;> rfl

/-- An option that is given is not filled in. -/
theorem fill_of_given {a : JobArguments} {e : Edit} (h : e.key ∈ a.edits.map Edit.key) :
    a.fill e = a := by
  obtain ⟨config, base, epsilonR, lambdaTF, muMinus⟩ := a
  cases e with
  | base | epsilonR | lambdaTF | muMinus =>
    obtain ⟨v, rfl⟩ : ∃ v, _ = some v := by simpa [edits, Edit.key] using h
    rfl
  | engine | strategy | samples | seeds | neighborhood | precision => rfl

/-- The options stand for keys of one section. -/
theorem section_of_mem_edits {a : JobArguments} {e : Edit} (h : e ∈ a.edits) :
    e.key.1 = "simulation" := by
  simp only [edits, List.mem_append, Option.mem_toList, Option.map_eq_some_iff] at h
  rcases h with ((⟨v, -, rfl⟩ | ⟨v, -, rfl⟩) | ⟨v, -, rfl⟩) | ⟨v, -, rfl⟩ <;> rfl

/-- Next to options of other sections, the keys of this section are those of the job. -/
theorem key_mem_iff {a : JobArguments} {own : List Edit} {k : String × String}
    (hown : ∀ e ∈ own, e.key.1 ≠ "simulation") :
    k ∈ (a.edits ++ own).map Edit.key
      ↔ if k.1 = "simulation" then k ∈ a.edits.map Edit.key else k ∈ own.map Edit.key := by
  rw [List.map_append, List.mem_append]
  split
  · rename_i hk
    refine or_iff_left fun h => ?_
    obtain ⟨e, he, rfl⟩ := List.mem_map.1 h
    exact hown e he hk
  · rename_i hk
    refine or_iff_right fun h => ?_
    obtain ⟨e, he, rfl⟩ := List.mem_map.1 h
    exact hk (section_of_mem_edits he)

/-- Where the arguments are part of larger ones with options of their own, filling in all options
restores them there, once filling in the own ones restores those. -/
theorem foldr_fill_edits_append {A : Type} {fill : A → Edit → A} (put : JobArguments → A)
    (hfill : ∀ e : Edit, e.key.1 = "simulation" → ∀ j, fill (put j) e = put (j.fill e))
    {a : JobArguments} {own : List Edit} {b : A}
    (hown : own.foldr (fun e b => fill b e) b = put a.bare) :
    (a.edits ++ own).foldr (fun e b => fill b e) b = put a := by
  have hpart : ∀ es : List Edit, (∀ e ∈ es, e.key.1 = "simulation") → ∀ j,
      es.foldr (fun e b => fill b e) (put j) = put (es.foldr (fun e j => j.fill e) j) := by
    intro es hes j
    induction es with
    | nil => rfl
    | cons e es ih =>
      rw [List.foldr_cons, ih fun e he => hes e (List.mem_cons_of_mem _ he),
        hfill e (hes e List.mem_cons_self), List.foldr_cons]
  rw [List.foldr_append, hown, hpart _ fun e => section_of_mem_edits, foldr_fill_edits]

end JobArguments

namespace OperationalArguments

theorem section_of_mem_ownEdits {a : OperationalArguments} :
    ∀ e ∈ a.ownEdits, e.key.1 ≠ "simulation" := by
  simp [ownEdits, Edit.key]

theorem foldr_fill_edits (a : OperationalArguments) :
    a.edits.foldr (fun e a => a.fill e) a.bare = a := by
  refine JobArguments.foldr_fill_edits_append (fun j => { a with job := j }) ?_ ?_
  · intro e he j
    cases e with
    | engine => simp [Edit.key] at he
    | _ => rfl
  · obtain ⟨job, engine, temperature⟩ := a
    cases engine <;> rfl

theorem fill_of_given {a : OperationalArguments} {e : Edit} (h : e.key ∈ a.edits.map Edit.key) :
    a.fill e = a := by
  rw [edits, JobArguments.key_mem_iff section_of_mem_ownEdits] at h
  obtain ⟨job, engine, temperature⟩ := a
  cases e with
  | engine =>
    obtain ⟨v, rfl⟩ : ∃ v, _ = some v := by simpa [ownEdits, Edit.key] using h
    rfl
  | base | epsilonR | lambdaTF | muMinus =>
    exact congrArg (OperationalArguments.mk · engine temperature) (job.fill_of_given h)
  | strategy | samples | seeds | neighborhood | precision => rfl

end OperationalArguments

namespace DomainArguments

theorem section_of_mem_ownEdits {a : DomainArguments} :
    ∀ e ∈ a.ownEdits, e.key.1 ≠ "simulation" := by
  simp [ownEdits, Edit.key, or_imp, forall_and]

theorem foldr_fill_edits (a : DomainArguments) :
    a.edits.foldr (fun e a => a.fill e) a.bare = a := by
  refine JobArguments.foldr_fill_edits_append (fun j => { a with job := j }) ?_ ?_
  · intro e he j
    cases e with
    | strategy | samples | seeds | neighborhood => simp [Edit.key] at he
    | _ => rfl
  · obtain ⟨job, strategy, samples, seeds, neighborhood, output⟩ := a
    cases strategy <;> cases samples <;> cases seeds <;> cases neighborhood <;> rfl

theorem fill_of_given {a : DomainArguments} {e : Edit} (h : e.key ∈ a.edits.map Edit.key) :
    a.fill e = a := by
  rw [edits, JobArguments.key_mem_iff section_of_mem_ownEdits] at h
  obtain ⟨job, strategy, samples, seeds, neighborhood, output⟩ := a
  cases e with
  | strategy | samples | seeds | neighborhood =>
    obtain ⟨v, rfl⟩ : ∃ v, _ = some v := by simpa [ownEdits, Edit.key] using h
    rfl
  | base | epsilonR | lambdaTF | muMinus =>
    exact congrArg (DomainArguments.mk · strategy samples seeds neighborhood output)
      (job.fill_of_given h)
  | engine | precision => rfl

/-- No option of an exploration stands for the engine. -/
theorem engine_notMem_edits {a : DomainArguments} :
    ("operational", "engine") ∉ a.edits.map Edit.key := by
  rw [edits, JobArguments.key_mem_iff section_of_mem_ownEdits]
  simp [ownEdits, Edit.key]

end DomainArguments

namespace StabilityArguments

theorem section_of_mem_ownEdits {a : StabilityArguments} :
    ∀ e ∈ a.ownEdits, e.key.1 ≠ "simulation" := by
  simp [ownEdits, Edit.key]

theorem foldr_fill_edits (a : StabilityArguments) :
    a.edits.foldr (fun e a => a.fill e) a.bare = a := by
  refine JobArguments.foldr_fill_edits_append (fun j => { a with job := j }) ?_ ?_
  · intro e he j
    cases e with
    | precision => simp [Edit.key] at he
    | _ => rfl
  · obtain ⟨job, places⟩ := a
    cases places <;> rfl

theorem fill_of_given {a : StabilityArguments} {e : Edit} (h : e.key ∈ a.edits.map Edit.key) :
    a.fill e = a := by
  rw [edits, JobArguments.key_mem_iff section_of_mem_ownEdits] at h
  obtain ⟨job, places⟩ := a
  cases e with
  | precision =>
    obtain ⟨v, rfl⟩ : ∃ v, _ = some v := by simpa [ownEdits, Edit.key] using h
    rfl
  | base | epsilonR | lambdaTF | muMinus =>
    exact congrArg (StabilityArguments.mk · places) (job.fill_of_given h)
  | engine | strategy | samples | seeds | neighborhood => rfl

end StabilityArguments

/-! ## All commands -/

/-- **Options in place of a job file.** For every job file and all arguments, the checked parameters
and the settings of a gate check, an exploration, a defect scan and the stability margins, or the
error in their place, are those without options on the file with the keys of the options set to
their values. What the file says for such a key does not matter, so it never leads to an error. -/
theorem settings_replaceKeys :
    ReplacesKeys File.parameters JobArguments.edits JobArguments.bare ∧
      ReplacesKeys File.operational OperationalArguments.edits OperationalArguments.bare ∧
      ReplacesKeys File.exploration DomainArguments.edits DomainArguments.bare ∧
      ReplacesKeys File.defectScan JobArguments.edits JobArguments.bare ∧
      ReplacesKeys File.margins StabilityArguments.edits StabilityArguments.bare := by
  refine ⟨?_, ?_, ?_, ?_, ?_⟩
  · exact replacesKeys_of_fill (fun f a _ e _ => parameters_set f a e)
      JobArguments.foldr_fill_edits fun _ _ => JobArguments.fill_of_given
  · exact replacesKeys_of_fill (fun f a _ e _ => operational_set f a e)
      OperationalArguments.foldr_fill_edits fun _ _ => OperationalArguments.fill_of_given
  · refine replacesKeys_of_fill (fun f a b e he => exploration_set f a ?_)
      DomainArguments.foldr_fill_edits fun _ _ => DomainArguments.fill_of_given
    intro hengine
    exact DomainArguments.engine_notMem_edits (hengine ▸ he)
  · exact replacesKeys_of_fill (fun f a _ e _ => defectScan_set f a e)
      JobArguments.foldr_fill_edits fun _ _ => JobArguments.fill_of_given
  · exact replacesKeys_of_fill (fun f a _ e _ => margins_set f a e)
      StabilityArguments.foldr_fill_edits fun _ _ => StabilityArguments.fill_of_given

end DanglingBonds
