/-
A new project can be built under its name if that is plain.

Making a project makes its directory and writes a manifest and a source in it. Both files have names of their own, so
the manifest is still there afterwards, as it was written. What a build of the directory starts from is then what its
text says, and this is what was meant exactly if the name stands for itself between quotes.

Results:
- `Path.names_join`: a name joined to a path is its last name;
- `Command.createProject_eq_ok`, `Command.manifest_of_createProject`: what making a project does to a disk, and what is
  found there then;
- `Command.new_project_iff`: when the name is read back, and what is built then.
-/
import C15.Proofs.Disks
import C15.Proofs.LineText
import C15.Proofs.Manifests
import C15.Proofs.Plans

namespace C15

open C15.Text

/-- a name joined to a path is its last name -/
theorem Path.names_join (p : Path) {q : Path} (hq : '/' ∉ q.chars) : (p.join q).names.getLast? = some q.chars := by
  have hrelative : ¬ q.isAbsolute = true := by
    intro h
    rw [Path.isAbsolute, beq_iff_eq] at h
    exact hq (List.mem_of_head? h)
  have hname : pieces (· == '/') q.chars = [q.chars] := by
    refine pieces_of_none fun c hc => beq_false_of_ne ?_
    rintro rfl
    exact hq hc
  have hbehind (front : List Char) : (pieces (· == '/') (front ++ '/' :: q.chars)).getLast? = some q.chars := by
    rw [pieces_append_cons (by rfl), hname, List.getLast?_concat]
  unfold Path.join
  rw [if_neg hrelative]
  split
  · next h =>
    rw [Bool.or_eq_true, beq_iff_eq] at h
    have hchars : Path.chars ⟨p.text ++ q.text⟩ = p.chars ++ q.chars := String.toList_append ..
    unfold Path.names
    rw [hchars]
    rcases h with hempty | hslash
    · have hnil : p.chars = [] := by simpa [Path.chars] using hempty
      rw [hnil, List.nil_append, hname]
      rfl
    · obtain ⟨front, hfront⟩ := List.getLast?_eq_some_iff.1 hslash
      rw [hfront, List.append_assoc]
      exact hbehind front
  · have hchars : Path.chars ⟨p.text ++ "/" ++ q.text⟩ = p.chars ++ '/' :: q.chars := by
      simp [Path.chars, String.toList_append]
    unfold Path.names
    rw [hchars]
    exact hbehind _

theorem Path.ancestors_eq_cons (p : Path) : ∃ parents, p.ancestors = p :: parents := by
  unfold Path.ancestors
  cases p.chars.length with
  | zero => exact ⟨[], rfl⟩
  | succ n => exact ⟨_, rfl⟩

theorem Path.text_ne_empty {p : Path} {name : List Char} (h : p.fileName = some name) : p.text ≠ "" := by
  have hnone : (⟨""⟩ : Path).fileName = none := by decide
  intro hempty
  have hp : p = ⟨""⟩ := congrArg Path.mk hempty
  rw [hp, hnone] at h
  cases h

namespace Command

open C15.Action

theorem isThere_answers (d : Disk) (path : Path) :
    Answers (perform (FileSystem.isThere path)) d (.ok (d.isDirectory path || d.isFile path)) := by
  have hlook : (FileSystem.isDirectory path : StateM Disk _) d = (d.isDirectory path, d) := rfl
  apply Answers.perform
  unfold FileSystem.isThere
  rw [Disk.look_bind hlook]
  cases d.isDirectory path <;> rfl

theorem write_of_writeText {d e : Disk} {p : Path} {text : String}
    (h : (FileSystem.writeText p text : StateM Disk _) d = (.ok (), e)) : d.write p text.toUTF8 = .ok e := by
  have hrun (f : Disk → Except FileError Unit × Disk) : (modifyGet f : StateM Disk _) d = f d := rfl
  simp only [FileSystem.writeText, hrun] at h
  cases hwrite : d.write p text.toUTF8 with
  | ok written =>
    rw [hwrite] at h
    cases h
    rfl
  | error c =>
    rw [hwrite] at h
    cases h

/-- what making a project does to a disk -/
theorem createProject_eq_ok {dir : Path} {s t : Streams} {d e : Disk}
    (h : (createProject dir).on s d = ((.ok (), t), e)) :
    ∃ name made written, dir.fileName = some name ∧ d.makeDirs dir.ancestors = (.ok (), made) ∧
      made.write (dir.join Manifest.fileName) (Manifest.template (String.ofList name)).toUTF8 = .ok written ∧
      written.write (dir.join ⟨"main.c15s"⟩) sourceTemplate.toUTF8 = .ok e := by
  unfold createProject at h
  rw [on_bind_ok (isThere_answers d dir s)] at h
  dsimp only at h
  by_cases hthere : (d.isDirectory dir || d.isFile dir) = true
  · rw [if_pos hthere] at h
    obtain ⟨_, _, _, hthrow, -⟩ := on_bind_eq_ok h
    cases hthrow
  · rw [if_neg hthere] at h
    cases hname : dir.fileName with
    | none =>
      rw [hname] at h
      cases h
    | some name =>
      rw [hname] at h
      obtain ⟨_, _, made, hmake, hfiles⟩ := on_bind_eq_ok h
      obtain ⟨_, _, written, hmanifest, hsource⟩ := on_bind_eq_ok hfiles
      exact ⟨name, made, written, rfl, (attempt_eq_ok hmake).1, write_of_writeText (attempt_eq_ok hmanifest).1,
        write_of_writeText (attempt_eq_ok hsource).1⟩

/-- what is found there then -/
theorem manifest_of_createProject {dir : Path} {s t : Streams} {d e : Disk}
    (h : (createProject dir).on s d = ((.ok (), t), e)) :
    ∃ name, dir.fileName = some name ∧ e.isDirectory dir = true ∧ e.isFile (dir.join Manifest.fileName) = true ∧
      e.readText (dir.join Manifest.fileName) = .ok (Manifest.template (String.ofList name)) := by
  obtain ⟨name, made, written, hname, hmade, hwritten, hsource⟩ := createProject_eq_ok h
  obtain ⟨parents, hparents⟩ := dir.ancestors_eq_cons
  rw [hparents] at hmade
  have hdir := Disk.isDirectory_of_makeDirs (Path.text_ne_empty hname) hmade
  obtain ⟨place, hplace, hfree, rfl, hlocate⟩ :=
    Disk.locate_of_write hwritten (Path.names_join dir (by decide)) (by decide) (by decide)
  obtain ⟨place', hplace', hfree', rfl, -⟩ :=
    Disk.locate_of_write hsource (Path.names_join dir (by decide)) (by decide) (by decide)
  have hne : place ≠ place' := by
    rintro rfl
    rw [hplace] at hplace'
    exact absurd hplace' (by decide)
  have hlater := Disk.locate_put_of_ne (y := .file sourceTemplate.toUTF8) hlocate hfree' hne
  have hkeeps := (Disk.Keeps.put hfree (.file (Manifest.template (String.ofList name)).toUTF8)).trans
    (Disk.Keeps.put hfree' (.file sourceTemplate.toUTF8))
  exact ⟨name, hname, hkeeps.isDirectory hdir, Disk.isFile_of_locate hlater, Disk.readText_of_locate hlater⟩

/-- a build of the directory starts from what the text of the manifest says -/
theorem planBuild_of_createProject {dir : Path} {e : Disk} {text : String} (hdir : e.isDirectory dir = true)
    (hfile : e.isFile (dir.join Manifest.fileName) = true)
    (hread : e.readText (dir.join Manifest.fileName) = .ok text) :
    Answers (planBuild dir) e ((Manifest.parse? text).elim (.error (.manifest .invalid)) fun m =>
      .ok (Plan.ofDirectory dir m)) := by
  have hplan := planBuild_directory hdir hfile
  unfold Disk.manifest at hplan
  rw [hread] at hplan
  dsimp only at hplan
  cases hparse : Manifest.parse? text with
  | none =>
    rw [hparse] at hplan
    exact hplan
  | some m =>
    rw [hparse] at hplan
    exact hplan

/-- **New projects.** Whenever a project was made, its directory has a manifest with the text for its name. The name is
read back from that exactly if all its characters are plain: no quote, no backslash, and no control character but the
tab. Exactly then the manifest is what was meant, and so is the plan to build the directory. Otherwise there is no plan
if the text is no manifest, or one with another name. -/
theorem new_project_iff (d e : Disk) (dir : Path) (s t : Streams) (h : (createProject dir).on s d = ((.ok (), t), e)) :
    ∃ name, dir.fileName = some name ∧
      e.readText (dir.join Manifest.fileName) = .ok (Manifest.template (String.ofList name)) ∧
      ((∃ m, Manifest.parse? (Manifest.template (String.ofList name)) = some m ∧ m.name = String.ofList name) ↔
        ∀ c ∈ name, Toml.isPlain c = true) ∧
      (Manifest.parse? (Manifest.template (String.ofList name)) =
        some ⟨String.ofList name, "0.1.0", "main.c15s", "dist", true, 500⟩ ↔ ∀ c ∈ name, Toml.isPlain c = true) ∧
      (∀ u, ((planBuild dir).on u e).1.1 = .error (.manifest .invalid) ↔
        Manifest.parse? (Manifest.template (String.ofList name)) = none) ∧
      ∀ u, (planBuild dir).on u e =
        ((.ok ⟨dir.join ⟨"main.c15s"⟩, dir.join ⟨"dist"⟩, String.ofList name, true, 500⟩, u), e) ↔
        ∀ c ∈ name, Toml.isPlain c = true := by
  obtain ⟨name, hname, hdir, hfile, hread⟩ := manifest_of_createProject h
  have hreads := Manifest.template_reads_iff (String.ofList name)
  rw [String.toList_ofList] at hreads
  have hparse (hplain : ∀ c ∈ name, Toml.isPlain c = true) :
      Manifest.parse? (Manifest.template (String.ofList name)) =
        some ⟨String.ofList name, "0.1.0", "main.c15s", "dist", true, 500⟩ :=
    Manifest.parse?_template (by rwa [String.toList_ofList])
  have hplan := planBuild_of_createProject hdir hfile hread
  refine ⟨name, hname, hread, hreads, ?_, ?_, ?_⟩
  · constructor
    · intro hm
      exact hreads.1 ⟨_, hm, rfl⟩
    · exact hparse
  · intro u
    rw [hplan u]
    cases Manifest.parse? (Manifest.template (String.ofList name)) <;> simp
  · intro u
    rw [hplan u]
    constructor
    · intro hmeant
      apply hreads.1
      cases hm : Manifest.parse? (Manifest.template (String.ofList name)) with
      | none =>
        rw [hm] at hmeant
        cases hmeant
      | some m =>
        rw [hm] at hmeant
        have hok := Except.ok.inj (congrArg (fun r => r.1.1) hmeant)
        exact ⟨m, rfl, congrArg Plan.name hok⟩
    · intro hplain
      rw [hparse hplain]
      rfl

/-- a name with a blank and a letter outside ASCII is plain -/
theorem new_project_plain :
    ((createProject ⟨"pro jé"⟩).on ⟨"", ""⟩ Disk.empty).1.1 = .ok () ∧
    ∀ u, (planBuild ⟨"pro jé"⟩).on u ((createProject ⟨"pro jé"⟩).on ⟨"", ""⟩ Disk.empty).2 =
      ((.ok ⟨⟨"pro jé/main.c15s"⟩, ⟨"pro jé/dist"⟩, "pro jé", true, 500⟩, u),
        ((createProject ⟨"pro jé"⟩).on ⟨"", ""⟩ Disk.empty).2) := by
  have hok : ((createProject ⟨"pro jé"⟩).on ⟨"", ""⟩ Disk.empty).1.1 = .ok () := by decide +kernel
  obtain ⟨name, hname, -, -, -, -, hplan⟩ :=
    new_project_iff Disk.empty ((createProject ⟨"pro jé"⟩).on ⟨"", ""⟩ Disk.empty).2 ⟨"pro jé"⟩ ⟨"", ""⟩ _
      (Prod.ext (Prod.ext hok rfl) rfl)
  have hlast : (⟨"pro jé"⟩ : Path).fileName = some "pro jé".toList := by decide +kernel
  rw [hlast, Option.some.injEq] at hname
  subst hname
  refine ⟨hok, fun u => ((hplan u).2 ?_).trans ?_⟩
  · exact List.all_eq_true.1 (by decide +kernel)
  · rw [String.ofList_toList]
    rfl

/-- a name with a quote: the project is made, and then its manifest cannot be read -/
theorem new_project_quoted :
    ((createProject ⟨"a\"b"⟩).on ⟨"", ""⟩ Disk.empty).1.1 = .ok () ∧ (⟨"a\"b"⟩ : Path).fileName = some "a\"b".toList ∧
    Manifest.parse? (Manifest.template "a\"b") = none ∧
    ((planBuild ⟨"a\"b"⟩).on ⟨"", ""⟩ ((createProject ⟨"a\"b"⟩).on ⟨"", ""⟩ Disk.empty).2).1.1 =
      .error (.manifest .invalid) := by
  have hok : ((createProject ⟨"a\"b"⟩).on ⟨"", ""⟩ Disk.empty).1.1 = .ok () := by decide +kernel
  have hlast : (⟨"a\"b"⟩ : Path).fileName = some "a\"b".toList := by decide +kernel
  have hparse : Manifest.parse? (Manifest.template "a\"b") = none := by decide +kernel
  refine ⟨hok, hlast, hparse, ?_⟩
  generalize hrun : (createProject ⟨"a\"b"⟩).on ⟨"", ""⟩ Disk.empty = r at hok ⊢
  obtain ⟨⟨_, t⟩, e⟩ := r
  subst hok
  obtain ⟨name, hname, hdir, hfile, hread⟩ := manifest_of_createProject hrun
  rw [hlast, Option.some.injEq] at hname
  rw [← hname, String.ofList_toList] at hread
  rw [planBuild_of_createProject hdir hfile hread ⟨"", ""⟩, hparse]
  rfl

end Command

end C15
