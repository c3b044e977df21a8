/-
What stays on a disk that directories are made and files are written on.

Making a directory and writing a file put one thing where there was no directory before. So directories stay, and a path
that could be walked leads to the same place afterwards (`Keeps`). What was put is then found under the path it was put
at: a directory that was made is one, and a file has the content that was written, until something is written to the
same place.

Results:
- `Disk.Keeps.walk`, `Disk.Keeps.isDirectory`: paths lead where they led, and directories stay;
- `Disk.isDirectory_of_makeDirs`: a directory that was made, with all its parents, is there;
- `Disk.locate_of_write`, `Disk.readText_of_locate`: a file that was written is found at the end of its path, and reads
  as it was written;
- `Disk.locate_put_of_ne`: it stays when something is put elsewhere.
-/
import C15.FileSystem
import C15.Proofs.Checking
import Mathlib.Data.List.DropRight

namespace C15

open C15.Text

namespace Disk

/-! ## Directories stay -/

theorem get?_put_of_ne (d : Disk) {place q : Place} (h : q ≠ place) (x : Entry) :
    (d.put place x).get? q = d.get? q := by
  have hfilter : (d.entries.filter (·.1 != place)).lookup q = d.entries.lookup q := by
    induction d.entries with
    | nil => rfl
    | cons entry entries ih =>
      by_cases hq : entry.1 = q
      · have hkept : (entry.1 != place) = true := bne_iff_ne.2 (hq ▸ h)
        rw [List.filter_cons, if_pos hkept, List.lookup_cons, List.lookup_cons, hq, beq_self_eq_true]
      · have hskip : (q == entry.1) = false := beq_false_of_ne (Ne.symm hq)
        rw [List.filter_cons, List.lookup_cons, hskip]
        split
        · rw [List.lookup_cons, hskip]
          exact ih
        · exact ih
  have hlast : ([(place, x)] : List (Place × Entry)).lookup q = none := by simp [List.lookup_cons, beq_false_of_ne h]
  simp only [get?, put, List.lookup_append, hfilter, hlast, Option.or_none]

/-- a later disk: it has the directories of an earlier one -/
structure Keeps (d e : Disk) : Prop where
  current : e.current = d.current
  directories : ∀ place, d.get? place = some .directory → e.get? place = some .directory

theorem Keeps.trans {d e f : Disk} (h : Keeps d e) (h' : Keeps e f) : Keeps d f :=
  ⟨h'.current.trans h.current, fun place hplace => h'.directories place (h.directories place hplace)⟩

/-- something put where there is no directory -/
theorem Keeps.put {d : Disk} {place : Place} (h : d.get? place ≠ some .directory) (x : Entry) :
    Keeps d (d.put place x) := by
  refine ⟨rfl, fun q hq => ?_⟩
  have hne : q ≠ place := by
    rintro rfl
    exact h hq
  rw [get?_put_of_ne d hne]
  exact hq

/-- names are looked up in directories only -/
theorem directory_of_enter {d : Disk} {place q : Place} {name : List Char} (h : d.enter place name = .ok q) :
    d.get? place = some .directory := by
  unfold enter at h
  split at h
  · cases h
  · cases h
  · assumption

/-- where a name leads does not depend on what else is on the disk -/
theorem enter_congr {d e : Disk} {place : Place} (hd : d.get? place = some .directory)
    (he : e.get? place = some .directory) (name : List Char) : e.enter place name = d.enter place name := by
  simp only [enter, hd, he]

theorem enter_meaningless {d : Disk} {place : Place} {name : List Char} (h : d.get? place = some .directory)
    (hname : Path.isMeaningless name = true) : d.enter place name = .ok place := by
  simp only [enter, h, hname, if_true]

namespace Keeps

variable {d e : Disk}

theorem enter (h : Keeps d e) {place q : Place} {name : List Char} (hq : d.enter place name = .ok q) :
    e.enter place name = .ok q := by
  have hplace := directory_of_enter hq
  rw [enter_congr hplace (h.directories place hplace)]
  exact hq

theorem walk (h : Keeps d e) {place q : Place} {names : List (List Char)} (hq : d.walk place names = .ok q) :
    e.walk place names = .ok q := by
  induction names generalizing place with
  | nil => exact hq
  | cons name names ih =>
    cases hname : d.enter place name with
    | error c =>
      rw [Disk.walk, hname] at hq
      cases hq
    | ok next =>
      rw [Disk.walk, hname] at hq
      rw [Disk.walk, h.enter hname]
      exact ih hq

theorem start (h : Keeps d e) (p : Path) : e.start p = d.start p := by
  simp only [Disk.start, h.current]

end Keeps

/-! ## Where paths lead -/

theorem locate_eq_ok {d : Disk} {p : Path} {place : Place} {x : Entry} :
    d.locate p = .ok (place, x) ↔ ∃ q, d.start p = .ok q ∧ d.walk q p.names = .ok place ∧ d.get? place = some x := by
  unfold locate
  simp only [bind_eq_ok]
  constructor
  · rintro ⟨q, hq, r, hr, h⟩
    cases hget : d.get? r with
    | none =>
      rw [hget] at h
      cases h
    | some e =>
      rw [hget] at h
      cases h
      exact ⟨q, hq, hr, hget⟩
  · rintro ⟨q, hq, hr, hx⟩
    refine ⟨q, hq, place, hr, ?_⟩
    rw [hx]
    rfl

theorem isDirectory_iff {d : Disk} {p : Path} :
    d.isDirectory p = true ↔ ∃ place, d.locate p = .ok (place, .directory) := by
  unfold isDirectory
  rcases hlocate : d.locate p with c | ⟨place, x⟩
  · simp
  · cases x <;> simp [Entry.isDirectory]

theorem Keeps.isDirectory {d e : Disk} (h : Keeps d e) {p : Path} (hp : d.isDirectory p = true) :
    e.isDirectory p = true := by
  obtain ⟨place, hplace⟩ := isDirectory_iff.1 hp
  obtain ⟨q, hq, hwalk, hget⟩ := locate_eq_ok.1 hplace
  exact isDirectory_iff.2 ⟨place, locate_eq_ok.2 ⟨q, (h.start p).trans hq, h.walk hwalk, h.directories place hget⟩⟩

theorem walk_append {d : Disk} {place q r : Place} {front back : List (List Char)} (hfront : d.walk place front = .ok q)
    (hback : d.walk q back = .ok r) : d.walk place (front ++ back) = .ok r := by
  induction front generalizing place with
  | nil =>
    cases hfront
    exact hback
  | cons name front ih =>
    obtain ⟨next, hnext, hrest⟩ := bind_eq_ok.1 hfront
    exact bind_eq_ok.2 ⟨next, hnext, ih hrest⟩

theorem walk_slashes {d : Disk} {place : Place} (h : d.get? place = some .directory) (n : Nat) :
    d.walk place (List.replicate n []) = .ok place := by
  induction n with
  | zero => rfl
  | succ n ih => exact bind_eq_ok.2 ⟨place, enter_meaningless h rfl, ih⟩

end Disk

/-- the names of a path without the slashes after the last one -/
def Path.named (p : Path) : List (List Char) := p.names.rdropWhile (·.isEmpty)

/-- nothing but slashes is left out -/
theorem Path.names_eq_named (p : Path) : ∃ n, p.names = p.named ++ List.replicate n [] := by
  have hblank : ∀ name ∈ p.names.rtakeWhile (·.isEmpty), name = [] :=
    fun name hname => List.isEmpty_iff.1 (List.mem_rtakeWhile_imp hname)
  refine ⟨(p.names.rtakeWhile (·.isEmpty)).length, ?_⟩
  calc p.names = p.named ++ p.names.rtakeWhile (·.isEmpty) := List.rdropWhile_append_rtakeWhile.symm
    _ = p.named ++ List.replicate _ [] := by rw [← List.eq_replicate_of_mem hblank]

theorem Path.named_eq_names {p : Path} {name : List Char} (hlast : p.names.getLast? = some name) (hname : name ≠ []) :
    p.named = p.names := by
  refine List.rdropWhile_eq_self_iff.2 fun hne => ?_
  rw [List.getLast?_eq_some_getLast hne, Option.some.injEq] at hlast
  rw [hlast, List.isEmpty_iff]
  exact hname

namespace Disk

/-! ## Making directories and writing files -/

theorem locateParent_eq_ok {d : Disk} {p : Path} {place : Place} {name : List Char}
    (h : d.locateParent p = .ok (place, name)) :
    ∃ q, d.start p = .ok q ∧ d.walk q p.named.dropLast = .ok place ∧ d.get? place = some .directory ∧
      name = p.named.getLast?.getD [] := by
  obtain ⟨q, hq, h⟩ := bind_eq_ok.1 h
  obtain ⟨r, hr, h⟩ := bind_eq_ok.1 h
  obtain ⟨r', hr', h⟩ := bind_eq_ok.1 h
  have hdir := directory_of_enter hr'
  rw [enter_meaningless hdir rfl] at hr'
  cases hr'
  cases h
  exact ⟨q, hq, hr, hdir, rfl⟩

/-- the place that something is put at is where its path leads -/
theorem walk_named {d : Disk} {p : Path} {place target : Place} {name : List Char}
    (hparent : d.locateParent p = .ok (place, name)) (htarget : d.enter place name = .ok target)
    (hfree : d.get? target ≠ some .directory) :
    p.named.getLast? = some name ∧ ∃ q, d.start p = .ok q ∧ d.walk q p.named = .ok target := by
  obtain ⟨q, hq, hwalk, hdir, hname⟩ := locateParent_eq_ok hparent
  rcases List.eq_nil_or_concat p.named with hnil | ⟨front, last, hconcat⟩
  · -- without a name it would be put at the place of a directory
    rw [hname, hnil, enter_meaningless hdir rfl] at htarget
    cases htarget
    exact absurd hdir hfree
  · rw [hconcat, List.concat_eq_append] at hwalk hname ⊢
    rw [List.dropLast_concat] at hwalk
    rw [List.getLast?_concat, Option.getD_some] at hname
    subst hname
    exact ⟨List.getLast?_concat, q, hq, walk_append hwalk (bind_eq_ok.2 ⟨target, htarget, rfl⟩)⟩

theorem isDirectory_of_makeDir {d e : Disk} {p : Path} (h : d.makeDir p = .ok e) : e.isDirectory p = true := by
  obtain ⟨⟨place, name⟩, hparent, h⟩ := bind_eq_ok.1 h
  obtain ⟨target, htarget, h⟩ := bind_eq_ok.1 h
  cases hget : d.get? target with
  | some x =>
    rw [hget] at h
    cases h
  | none =>
    rw [hget] at h
    cases h
    have hfree : d.get? target ≠ some .directory := by simp [hget]
    have hroot : target ≠ [] := by
      rintro rfl
      simp [get?] at hget
    have hkeeps := Keeps.put hfree .directory
    have hmade := get?_put_self d hroot .directory
    obtain ⟨-, q, hq, hwalk⟩ := walk_named hparent htarget hfree
    obtain ⟨n, hn⟩ := p.names_eq_named
    refine isDirectory_iff.2 ⟨target, locate_eq_ok.2 ⟨q, (hkeeps.start p).trans hq, ?_, hmade⟩⟩
    rw [hn]
    exact walk_append (hkeeps.walk hwalk) (walk_slashes hmade n)

/-- a directory that was made with all its parents is there -/
theorem isDirectory_of_makeDirs {d e : Disk} {p : Path} {parents : List Path} (hp : p.text ≠ "")
    (h : d.makeDirs (p :: parents) = (.ok (), e)) : e.isDirectory p = true := by
  -- where a directory cannot be made, one that is there already will do
  have hanswer (d' : Disk) (c : FileError)
      (h : (if d'.isDirectory p = true then Except.ok () else Except.error c, d') = (.ok (), e)) :
      e.isDirectory p = true := by
    obtain ⟨hok, rfl⟩ := Prod.mk.inj h
    by_contra hno
    rw [if_neg hno] at hok
    cases hok
  rw [makeDirs, if_neg (by simpa using hp)] at h
  split at h
  · next made hmade =>
    cases h
    exact isDirectory_of_makeDir hmade
  · split at h
    · cases h
    · split at h
      · next made hmade =>
        cases h
        exact isDirectory_of_makeDir hmade
      · exact hanswer _ _ h
  · exact hanswer _ _ h

theorem write_eq_ok {d e : Disk} {p : Path} {content : ByteArray} (h : d.write p content = .ok e) :
    ∃ place name target, d.locateParent p = .ok (place, name) ∧ d.enter place name = .ok target ∧
      d.get? target ≠ some .directory ∧ e = d.put target (.file content) := by
  obtain ⟨⟨place, name⟩, hparent, h⟩ := bind_eq_ok.1 h
  obtain ⟨-, h⟩ := guard_eq_ok.1 h
  obtain ⟨target, htarget, h⟩ := bind_eq_ok.1 h
  refine ⟨place, name, target, hparent, htarget, ?_⟩
  split at h
  · cases h
  · next hfree =>
    cases h
    exact ⟨hfree, rfl⟩

/-- a proper name leads down -/
theorem enter_name {d : Disk} {place target : Place} {name : List Char} (h : d.enter place name = .ok target)
    (hname : Path.isMeaningless name = false) (hup : name ≠ ['.', '.']) : target = place ++ [name] := by
  simp only [enter, directory_of_enter h, hname, Bool.false_eq_true, if_false, if_neg hup] at h
  split at h
  · cases h
  · cases h
    rfl

/-- a file that was written is at the end of its path; if the path ends in a proper name, the file has this name -/
theorem locate_of_write {d e : Disk} {p : Path} {content : ByteArray} {name : List Char} (h : d.write p content = .ok e)
    (hlast : p.names.getLast? = some name) (hname : Path.isMeaningless name = false) (hup : name ≠ ['.', '.']) :
    ∃ target, target.getLast? = some name ∧ d.get? target ≠ some .directory ∧ e = d.put target (.file content) ∧
      e.locate p = .ok (target, .file content) := by
  obtain ⟨place, last, target, hparent, htarget, hfree, rfl⟩ := write_eq_ok h
  obtain ⟨hnamed, q, hq, hwalk⟩ := walk_named hparent htarget hfree
  have hnonempty : name ≠ [] := by
    rintro rfl
    cases hname
  rw [Path.named_eq_names hlast hnonempty] at hnamed hwalk
  rw [hlast, Option.some.injEq] at hnamed
  subst hnamed
  have hplace := enter_name htarget hname hup
  have hroot : target ≠ [] := by
    rw [hplace]
    exact List.concat_ne_nil _ _
  have hkeeps := Keeps.put hfree (.file content)
  exact ⟨target, by rw [hplace, List.getLast?_concat], hfree, rfl,
    locate_eq_ok.2 ⟨q, (hkeeps.start p).trans hq, hkeeps.walk hwalk, get?_put_self d hroot _⟩⟩

/-- what is put elsewhere does not change what a path leads to -/
theorem locate_put_of_ne {d : Disk} {p : Path} {place target : Place} {x y : Entry} (h : d.locate p = .ok (place, x))
    (hfree : d.get? target ≠ some .directory) (hne : place ≠ target) : (d.put target y).locate p = .ok (place, x) := by
  obtain ⟨q, hq, hwalk, hget⟩ := locate_eq_ok.1 h
  have hkeeps := Keeps.put hfree y
  exact locate_eq_ok.2 ⟨q, (hkeeps.start p).trans hq, hkeeps.walk hwalk, by rw [get?_put_of_ne d hne, hget]⟩

theorem isFile_of_locate {d : Disk} {p : Path} {place : Place} {content : ByteArray}
    (h : d.locate p = .ok (place, .file content)) : d.isFile p = true := by
  rw [isFile, h]
  rfl

theorem readText_of_locate {d : Disk} {p : Path} {place : Place} {text : String}
    (h : d.locate p = .ok (place, .file text.toUTF8)) : d.readText p = .ok text := by
  have hdecode : String.fromUTF8? text.toUTF8 = some text := dif_pos text.isValidUTF8
  refine bind_eq_ok.2 ⟨_, h, ?_⟩
  dsimp only
  rw [hdecode]
  rfl

end Disk

end C15
