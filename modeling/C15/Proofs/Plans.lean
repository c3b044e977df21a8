/-
What building and checking a source do on a disk.

Both commands look for the nearest directory above the source that has a manifest, each by code of its own. Building
hands on what is wrong with that manifest. Checking does not: it goes on as if there were none. `Disk.package` is what
the two look for. With a good manifest, or without any, they use the same limit and agree; with a bad one there is
nothing to build, and a check can still go well.

Results:
- `Command.planBuild_directory`, `Command.planBuild_source`: what a plan is made from;
- `Command.checkLimit_answers`, `Command.runCheck_source`: a check goes well exactly if the text builds within the limit
  of the package;
- `Command.check_agrees_iff`: checking and building agree unless the manifest is bad and the text builds within the
  default limit.
-/
import C15.Command
import Mathlib.Data.List.Basic

namespace C15

/-! ## Actions on a disk -/

namespace Action

variable {α β : Type}

/-- run an action on a disk: what it answers, what it has written to the streams then, and the disk it leaves -/
def on (a : Action (StateM Disk) α) (s : Streams) (d : Disk) : (Except CommandError α × Streams) × Disk :=
  (a.run.run s).run d

/-- an action that only looks at a disk, and its answer -/
def Answers (a : Action (StateM Disk) α) (d : Disk) (r : Except CommandError α) : Prop := ∀ s, a.on s d = ((r, s), d)

/-- an action that goes well and leaves the disk as it is, whatever it writes to the streams -/
def Speaks (a : Action (StateM Disk) Unit) : Prop := ∀ s d, ∃ s', a.on s d = ((.ok (), s'), d)

theorem on_bind (a : Action (StateM Disk) α) (f : α → Action (StateM Disk) β) (s : Streams) (d : Disk) :
    (a >>= f).on s d = ((ExceptT.bindCont f (a.on s d).1.1).run (a.on s d).1.2).run (a.on s d).2 := rfl

theorem on_bind_ok {a : Action (StateM Disk) α} {x : α} {s t : Streams} {d e : Disk} (h : a.on s d = ((.ok x, t), e))
    (f : α → Action (StateM Disk) β) : (a >>= f).on s d = (f x).on t e := by
  rw [on_bind, h]
  rfl

theorem on_bind_error {a : Action (StateM Disk) α} {c : CommandError} {s t : Streams} {d e : Disk}
    (h : a.on s d = ((.error c, t), e)) (f : α → Action (StateM Disk) β) : (a >>= f).on s d = ((.error c, t), e) := by
  rw [on_bind, h]
  rfl

/-- two actions that went well -/
theorem on_bind_eq_ok {a : Action (StateM Disk) α} {f : α → Action (StateM Disk) β} {y : β} {s t : Streams} {d e : Disk}
    (h : (a >>= f).on s d = ((.ok y, t), e)) :
    ∃ x s' d', a.on s d = ((.ok x, s'), d') ∧ (f x).on s' d' = ((.ok y, t), e) := by
  rcases ha : a.on s d with ⟨⟨c | x, s'⟩, d'⟩
  · rw [on_bind_error ha] at h
    cases h
  · rw [on_bind_ok ha] at h
    exact ⟨x, s', d', rfl, h⟩

/-- a file operation that went well -/
theorem attempt_eq_ok {cause : FileError → CommandError} {op : StateM Disk (Except FileError α)} {x : α} {s t : Streams}
    {d e : Disk} (h : (attempt cause op).on s d = ((.ok x, t), e)) : op d = (.ok x, e) ∧ t = s := by
  obtain ⟨r, s', d', hop, h⟩ := on_bind_eq_ok h
  have hrun : (perform op : Action (StateM Disk) _).on s d = ((.ok (op d).1, s), (op d).2) := rfl
  rw [hrun] at hop
  cases hop
  cases hr : (op d).1 with
  | error c =>
    rw [hr] at h
    cases h
  | ok y =>
    rw [hr] at h
    cases h
    exact ⟨Prod.ext hr rfl, rfl⟩

namespace Answers

variable {d : Disk} {a : Action (StateM Disk) α} {f : α → Action (StateM Disk) β}

theorem pure (x : α) : Answers (Pure.pure x) d (.ok x) := fun _ => rfl

theorem throw (e : CommandError) : Answers (MonadExcept.throw e : Action (StateM Disk) α) d (.error e) := fun _ => rfl

theorem bind {x : α} {r : Except CommandError β} (ha : Answers a d (.ok x)) (hf : Answers (f x) d r) :
    Answers (a >>= f) d r :=
  fun s => (on_bind_ok (ha s) f).trans (hf s)

theorem bind_error {e : CommandError} (ha : Answers a d (.error e)) : Answers (a >>= f) d (.error e) :=
  fun s => on_bind_error (ha s) f

/-- an operation of the disk that leaves it as it is -/
theorem perform {op : StateM Disk α} {x : α} (h : op d = (x, d)) : Answers (Action.perform op) d (.ok x) := by
  intro s
  change (((fun p : α × Disk => ((Except.ok p.1, s), p.2)) (op d)) : (Except CommandError α × Streams) × Disk) = _
  rw [h]

theorem isDirectory (d : Disk) (path : Path) :
    Answers (Action.perform (FileSystem.isDirectory path)) d (.ok (d.isDirectory path)) :=
  perform rfl

theorem isFile (d : Disk) (path : Path) : Answers (Action.perform (FileSystem.isFile path)) d (.ok (d.isFile path)) :=
  perform rfl

end Answers

namespace Speaks

theorem print (text : String) : Speaks (Action.print text) := fun _ _ => ⟨_, rfl⟩

theorem printError (text : String) : Speaks (Action.printError text) := fun _ _ => ⟨_, rfl⟩

theorem bind {a b : Action (StateM Disk) Unit} (ha : Speaks a) (hb : Speaks b) : Speaks (do a; b) := by
  intro s d
  obtain ⟨t, ht⟩ := ha s d
  obtain ⟨u, hu⟩ := hb t d
  exact ⟨u, (on_bind_ok ht _).trans hu⟩

theorem forM (texts : List String) : Speaks (texts.forM fun text => Action.printError (text ++ "\n")) := by
  induction texts with
  | nil => exact fun s _ => ⟨s, rfl⟩
  | cons text texts ih => exact (printError _).bind ih

theorem report (path : Path) (source : String) (assembly : Option String) (ds : List Diagnostic) :
    Speaks (Action.report path source assembly ds) := forM _

end Speaks

/-- a file that can be read -/
theorem load_answers {d : Disk} {path : Path} {text : String} (h : d.readText path = .ok text) :
    Answers (load path) d (.ok text) := by
  apply Answers.bind (x := Except.ok text)
  · apply Answers.perform
    change (d.readText path, d) = _
    rw [h]
  · exact Answers.pure text

end Action

/-! ## Manifests on a disk -/

namespace Disk

/-- the manifest in a file -/
def manifest (d : Disk) (path : Path) : Except ManifestError Manifest :=
  match d.readText path with
  | .error e => .error (.unreadable path e)
  | .ok text =>
    match Manifest.parse? text with
    | some manifest => .ok manifest
    | none => .error .invalid

/-- the nearest of a path and its parents that holds a manifest -/
def root? (d : Disk) (path : Path) : Option Path := path.ancestors.find? fun p => d.isFile (p.join Manifest.fileName)

/-- the package a source belongs to, if any: its root and its manifest, or what is wrong with the manifest -/
def package (d : Disk) (path : Path) : Except ManifestError (Option (Path × Manifest)) :=
  match d.root? path with
  | none => .ok none
  | some root => (d.manifest (root.join Manifest.fileName)).map fun manifest => some (root, manifest)

/-- an operation that only looks, and what follows it -/
theorem look_bind {α β : Type} {d : Disk} {op : StateM Disk α} {x : α} (h : op d = (x, d)) (f : α → StateM Disk β) :
    (op >>= f) d = f x d := by
  change (fun p : α × Disk => f p.1 p.2) (op d) = f x d
  rw [h]

theorem loadManifest_run (d : Disk) (path : Path) :
    (Project.loadManifest path : StateM Disk _) d = (d.manifest path, d) := by
  have hlook : (FileSystem.readText path : StateM Disk _) d = (d.readText path, d) := rfl
  unfold Project.loadManifest manifest
  rw [look_bind hlook]
  cases d.readText path with
  | error e => rfl
  | ok text =>
    dsimp only
    cases Manifest.parse? text <;> rfl

theorem findRoot_run (d : Disk) (path : Path) : (Project.findRoot path : StateM Disk _) d = (d.root? path, d) := by
  unfold Project.findRoot root?
  induction path.ancestors with
  | nil => rfl
  | cons p paths ih =>
    have hlook : (FileSystem.isFile (p.join Manifest.fileName) : StateM Disk _) d =
        (d.isFile (p.join Manifest.fileName), d) := rfl
    rw [List.find?_cons]
    refine (look_bind hlook _).trans ?_
    cases d.isFile (p.join Manifest.fileName) with
    | true => rfl
    | false => exact ih

/-- what can be read is no directory -/
theorem isDirectory_of_readText {d : Disk} {path : Path} {text : String} (h : d.readText path = .ok text) :
    d.isDirectory path = false := by
  unfold readText at h
  unfold isDirectory
  rcases hlocate : d.locate path with _ | ⟨place, e⟩
  · rfl
  · rw [hlocate] at h
    cases e with
    | directory => cases h
    | file content => rfl

end Disk

/-! ## Plans -/

namespace Command

open C15.Action

/-- how a source is built in its package, or on its own -/
def Plan.ofSource (path : Path) (package : Option (Path × Manifest)) : Plan :=
  let name := path.fileStem.getD "main"
  match package with
  | some (root, manifest) => ⟨path, manifest.outPath root, name, manifest.emitAssembly, manifest.memoryLimit.toNat⟩
  | none => ⟨path, (path.parent.getD ⟨"."⟩).join ⟨"dist"⟩, name, true, defaultMemoryLimit⟩

/-- how a directory is built -/
def Plan.ofDirectory (path : Path) (manifest : Manifest) : Plan :=
  ⟨manifest.entryPath path, manifest.outPath path, manifest.name, manifest.emitAssembly, manifest.memoryLimit.toNat⟩

theorem loadManifest_answers (d : Disk) (path : Path) :
    Answers (Action.loadManifest path) d ((d.manifest path).mapError CommandError.manifest) := by
  apply Answers.bind (Answers.perform (d.loadManifest_run path))
  cases d.manifest path with
  | ok manifest => exact Answers.pure manifest
  | error e => exact Answers.throw _

/-- a source is planned by its package, and what is wrong with the manifest is handed on -/
theorem planBuild_source {d : Disk} {path : Path} (hdir : d.isDirectory path = false)
    (hext : path.extension = some "c15s") :
    Answers (planBuild path) d (((d.package path).mapError CommandError.manifest).map (Plan.ofSource path)) := by
  apply Answers.bind (Answers.isDirectory d path)
  rw [if_neg (hdir ▸ Bool.false_ne_true), if_pos (beq_iff_eq.2 hext)]
  apply Answers.bind (Answers.perform (d.findRoot_run path))
  unfold Disk.package
  cases d.root? path with
  | none => exact Answers.pure _
  | some root =>
    have hload := loadManifest_answers d (root.join Manifest.fileName)
    dsimp only
    cases hm : d.manifest (root.join Manifest.fileName) with
    | ok manifest =>
      rw [hm] at hload
      exact Answers.bind hload (Answers.pure _)
    | error e =>
      rw [hm] at hload
      exact Answers.bind_error hload

/-- a directory is planned by the manifest in it -/
theorem planBuild_directory {d : Disk} {path : Path} (hdir : d.isDirectory path = true)
    (hfile : d.isFile (path.join Manifest.fileName) = true) :
    Answers (planBuild path) d
      (((d.manifest (path.join Manifest.fileName)).mapError CommandError.manifest).map (Plan.ofDirectory path)) := by
  apply Answers.bind (Answers.isDirectory d path)
  rw [if_pos hdir]
  dsimp only
  apply Answers.bind (Answers.isFile d _)
  rw [if_pos hfile]
  have hload := loadManifest_answers d (path.join Manifest.fileName)
  cases hm : d.manifest (path.join Manifest.fileName) with
  | ok manifest =>
    rw [hm] at hload
    exact Answers.bind hload (Answers.pure _)
  | error e =>
    rw [hm] at hload
    exact Answers.bind_error hload

/-- words a source is checked for; a bad manifest counts as none -/
def limitFor (package : Except ManifestError (Option (Path × Manifest))) : Nat :=
  match package with
  | .ok (some (_, manifest)) => manifest.memoryLimit.toNat
  | _ => defaultMemoryLimit

theorem checkLimit_answers (d : Disk) (path : Path) :
    Answers (checkLimit path) d (.ok (limitFor (d.package path))) := by
  apply Answers.bind (Answers.perform (d.findRoot_run path))
  unfold Disk.package
  cases d.root? path with
  | none => exact Answers.pure _
  | some root =>
    apply Answers.bind (Answers.perform (d.loadManifest_run _))
    dsimp only
    cases d.manifest (root.join Manifest.fileName) with
    | ok manifest => exact Answers.pure _
    | error e => exact Answers.pure _

theorem Plan.ofSource_entry (path : Path) (package : Option (Path × Manifest)) :
    (Plan.ofSource path package).entry = path := by
  rcases package with _ | ⟨root, manifest⟩ <;> rfl

/-- the plan of a source has the limit that the source is checked for -/
theorem Plan.ofSource_limit (path : Path) (package : Option (Path × Manifest)) :
    (Plan.ofSource path package).limit = limitFor (.ok package) := by
  rcases package with _ | ⟨root, manifest⟩ <;> rfl

/-! ## Checking and building -/

theorem checkSource_ok {d : Disk} {path : Path} {text : String} {b : Build}
    (h : C15.build text (limitFor (d.package path)) = .ok b) (s : Streams) :
    ∃ t, (checkSource path text).on s d = ((.ok (), t), d) := by
  unfold checkSource
  rw [on_bind_ok (checkLimit_answers d path s), h]
  exact Speaks.report path text _ _ s d

theorem checkSource_error {d : Disk} {path : Path} {text : String} {f : BuildFailure}
    (h : C15.build text (limitFor (d.package path)) = .error f) (s : Streams) :
    ∃ t, (checkSource path text).on s d = ((.error .checkFailed, t), d) := by
  unfold checkSource
  rw [on_bind_ok (checkLimit_answers d path s), h]
  obtain ⟨t, ht⟩ := Speaks.report path text f.assembly f.diagnostics s d
  exact ⟨t, on_bind_ok ht _⟩

/-- a check of a source only looks at the disk; it goes well exactly if the text builds within the limit of its
package -/
theorem runCheck_source {d : Disk} {path : Path} {text : String} (hext : path.extension = some "c15s")
    (hread : d.readText path = .ok text) (s : Streams) :
    ((runCheck path).on s d).2 = d ∧
      (((runCheck path).on s d).1.1 = .ok () ↔ ∃ b, C15.build text (limitFor (d.package path)) = .ok b) := by
  have hassembly : ¬ (path.extension == some "c15") = true := by
    rw [hext]
    decide
  unfold runCheck
  rw [on_bind_ok (load_answers hread s), if_neg hassembly]
  cases hbuild : C15.build text (limitFor (d.package path)) with
  | ok b =>
    obtain ⟨t, ht⟩ := checkSource_ok hbuild s
    obtain ⟨u, hu⟩ := Speaks.print s!"{path.text}: ok\n" t d
    rw [on_bind_ok ht, hu]
    exact ⟨rfl, fun _ => ⟨b, rfl⟩, fun _ => rfl⟩
  | error f =>
    obtain ⟨t, ht⟩ := checkSource_error hbuild s
    rw [on_bind_error ht]
    refine ⟨rfl, ?_, ?_⟩
    · intro h
      cases h
    · rintro ⟨b, h⟩
      cases h

/-- a source has a plan unless the manifest is bad, and its text builds under the plan as it is checked -/
theorem planned_builds_iff (path : Path) (text : String) (package : Except ManifestError (Option (Path × Manifest))) :
    (∃ plan, (package.mapError CommandError.manifest).map (Plan.ofSource path) = .ok plan ∧
      ∃ b, C15.build text plan.limit = .ok b) ↔
      (∀ m, package ≠ .error m) ∧ ∃ b, C15.build text (limitFor package) = .ok b := by
  cases package with
  | ok package =>
    rw [← Plan.ofSource_limit path package]
    constructor
    · rintro ⟨plan, hplan, hbuild⟩
      cases hplan
      exact ⟨(fun m h => by cases h), hbuild⟩
    · rintro ⟨-, hbuild⟩
      exact ⟨_, rfl, hbuild⟩
  | error m =>
    constructor
    · rintro ⟨plan, hplan, -⟩
      cases hplan
    · rintro ⟨hgood, -⟩
      exact absurd rfl (hgood m)

/-- planning a source fails exactly with what is wrong with the manifest -/
theorem planned_error_iff (path : Path) (package : Except ManifestError (Option (Path × Manifest))) (e : CommandError) :
    (package.mapError CommandError.manifest).map (Plan.ofSource path) = .error e ↔
      ∃ m, package = .error m ∧ e = .manifest m := by
  constructor
  · intro h
    cases package with
    | ok package => cases h
    | error m =>
      cases h
      exact ⟨m, rfl, rfl⟩
  · rintro ⟨m, rfl, rfl⟩
    rfl

/-- a plan is for the source itself, with the limit that the source is checked for -/
theorem planned_ok {path : Path} {package : Except ManifestError (Option (Path × Manifest))} {plan : Plan}
    (h : (package.mapError CommandError.manifest).map (Plan.ofSource path) = .ok plan) :
    plan.entry = path ∧ plan.limit = limitFor package := by
  cases package with
  | ok package =>
    cases h
    exact ⟨Plan.ofSource_entry path package, Plan.ofSource_limit path package⟩
  | error m => cases h

/-- **Checking and building a source.** They look at the same package. If its manifest is bad, building is refused with
what is wrong; in all other cases there is a plan for this source, and checking uses its limit. Neither changes the
disk. A check goes well exactly if the source can be planned and its text builds under the plan, but for one case: the
manifest is bad and the text builds within the default limit. -/
theorem check_agrees_iff (d : Disk) (path : Path) (text : String) (s : Streams) (hext : path.extension = some "c15s")
    (hread : d.readText path = .ok text) :
    (∀ e, ((planBuild path).on s d).1.1 = .error e ↔ ∃ m, d.package path = .error m ∧ e = .manifest m) ∧
    (∀ plan, ((planBuild path).on s d).1.1 = .ok plan →
      plan.entry = path ∧ (checkLimit path).on s d = ((.ok plan.limit, s), d)) ∧
    ((planBuild path).on s d).2 = d ∧ ((runCheck path).on s d).2 = d ∧
    ((((runCheck path).on s d).1.1 = .ok () ↔
        ∃ plan, ((planBuild path).on s d).1.1 = .ok plan ∧ ∃ b, C15.build text plan.limit = .ok b) ↔
      ¬ ((∃ m, d.package path = .error m) ∧ ∃ b, C15.build text defaultMemoryLimit = .ok b)) := by
  have hplan := planBuild_source (Disk.isDirectory_of_readText hread) hext s
  have hlimit := checkLimit_answers d path s
  obtain ⟨hdisk, hcheck⟩ := runCheck_source hext hread s
  rw [hplan, hdisk, hcheck, hlimit, planned_builds_iff]
  refine ⟨planned_error_iff path _, ?_, rfl, rfl, ?_⟩
  · intro plan h
    obtain ⟨hentry, hwords⟩ := planned_ok h
    exact ⟨hentry, by rw [hwords]⟩
  · cases d.package path with
    | ok package =>
      have hgood : ∀ m, (.ok package : Except ManifestError _) ≠ .error m := fun m h => by cases h
      constructor
      · rintro - ⟨⟨m, h⟩, -⟩
        exact hgood m h
      · rintro -
        exact ⟨fun h => ⟨hgood, h⟩, fun h => h.2⟩
    | error m =>
      -- here the limit of the check is the default
      constructor
      · rintro hiff ⟨-, hbuild⟩
        exact (hiff.1 hbuild).1 m rfl
      · intro hnot
        constructor
        · intro hbuild
          exact absurd ⟨⟨m, rfl⟩, hbuild⟩ hnot
        · rintro ⟨hgood, -⟩
          exact absurd rfl (hgood m)

/-- a directory with a manifest and a source -/
def packageOf (manifest source : String) : Disk where
  entries := Disk.empty.entries ++
    [(Disk.empty.current ++ ["c15.toml".toList], .file manifest.toUTF8),
      (Disk.empty.current ++ ["main.c15s".toList], .file source.toUTF8)]
  current := Disk.empty.current

/-- a manifest with a limit too low for the source: it counts for the check as it does for the build -/
def tightPackage : Disk :=
  packageOf "[package]\nname = 'p'\nversion = '1'\n[target]\nmemory_limit = 0\n" "void main() { }"

theorem tightPackage_agrees :
    (⟨"main.c15s"⟩ : Path).extension = some "c15s" ∧ tightPackage.readText ⟨"main.c15s"⟩ = .ok "void main() { }" ∧
    ((runCheck ⟨"main.c15s"⟩).on ⟨"", ""⟩ tightPackage).1.1 = .error .checkFailed ∧
    (((runCheck ⟨"main.c15s"⟩).on ⟨"", ""⟩ tightPackage).1.1 = .ok () ↔
      ∃ plan, ((planBuild ⟨"main.c15s"⟩).on ⟨"", ""⟩ tightPackage).1.1 = .ok plan ∧
        ∃ b, C15.build "void main() { }" plan.limit = .ok b) := by
  have hext : (⟨"main.c15s"⟩ : Path).extension = some "c15s" := by decide +kernel
  have hread : tightPackage.readText ⟨"main.c15s"⟩ = .ok "void main() { }" := by decide +kernel
  have hpackage : tightPackage.package ⟨"main.c15s"⟩ = .ok (some (⟨""⟩, ⟨"p", "1", "main.c15s", "dist", true, 0⟩)) := by
    decide +kernel
  obtain ⟨-, -, -, -, hagrees⟩ := check_agrees_iff tightPackage ⟨"main.c15s"⟩ _ ⟨"", ""⟩ hext hread
  refine ⟨hext, hread, by decide +kernel, hagrees.2 ?_⟩
  rintro ⟨⟨m, hm⟩, -⟩
  rw [hpackage] at hm
  cases hm

/-- a manifest without a name: the check goes well, and there is nothing to build -/
theorem namelessPackage_disagrees :
    (⟨"main.c15s"⟩ : Path).extension = some "c15s" ∧
    (packageOf "[package]\n" "void main() { }").readText ⟨"main.c15s"⟩ = .ok "void main() { }" ∧
    ((runCheck ⟨"main.c15s"⟩).on ⟨"", ""⟩ (packageOf "[package]\n" "void main() { }")).1.1 = .ok () ∧
    ((planBuild ⟨"main.c15s"⟩).on ⟨"", ""⟩ (packageOf "[package]\n" "void main() { }")).1.1 =
      .error (.manifest .invalid) := by
  decide +kernel

end Command

end C15
