/-
  DotCom.Proofs.Command.Files — the command leaves no partial result. Whatever goes wrong, no file has changed; and
  where the command succeeds, one file holds the image and all others are as they were.

  This is proved for any place where whole files are read and written (`FileSystem`), of which a file tree is one
  (`treeSystem`).

  - `Session`: how a compilation of one file into another can end; `compileFile_session`: these are all the ways.
  - `walk_last`: only a path that ends in a name leads to a file of a tree.
  - `command_writes_whole_images`: what the command does to files.
-/

import DotCom.Command.Session
import DotCom.Proofs.Command.Paths

namespace DotCom.Command

/-- A place where whole files are read and written. Files have names, and a path leads to at most one of them; what
    cannot be done is not done in part. -/
structure FileSystem (σ ν : Type) where
  disk : Disk (StateM σ)
  file? : σ → ν → Option (Array UInt8)
  /-- The file that a path leads to, whether it is there or can be made. -/
  name? : σ → String → Option ν
  read_ok : ∀ {path s s' bytes}, disk.read path s = (.ok bytes, s') →
    s' = s ∧ NamesFile path.toList ∧ ∃ n, name? s path = some n ∧ file? s n = some bytes
  read_error : ∀ {path s s' e}, disk.read path s = (.error e, s') → s' = s
  write_ok : ∀ {path bytes s s'}, disk.write path bytes s = (.ok (), s') →
    NamesFile path.toList ∧ ∃ n, name? s path = some n ∧ file? s' n = some bytes ∧
    ∀ k, k ≠ n → file? s' k = file? s k
  write_error : ∀ {path bytes s s' e}, disk.write path bytes s = (.error e, s') → s' = s

/-! ## Sessions -/

section

variable {σ : Type}

/-- How a compilation of one file into another can end, and the state it leaves. -/
inductive Session (disk : Disk (StateM σ)) (i : Invocation) (s : σ) : Report × σ → Prop
  | unread {e : DiskError} {s' : σ} : disk.readText i.input s = (.error e, s') →
      Session disk i s (.failed ("error reading '" ++ i.input ++ "': " ++ e.message), s')
  | refused {text : String} {e : CompileError} {s' : σ} : disk.readText i.input s = (.ok text, s') →
      DotCom.compile text i.options = .error (.rejected e) → Session disk i s (.failed e.message, s')
  | crashed {text : String} {s' : σ} : disk.readText i.input s = (.ok text, s') →
      DotCom.compile text i.options = .error .crashed →
      Session disk i s ({ exit := 101, stderr := "attempt to add with overflow\n" }, s')
  | unwritten {text : String} {image : Array UInt8} {e : DiskError} {s' s'' : σ} :
      disk.readText i.input s = (.ok text, s') →
      DotCom.compile text i.options = .ok image → disk.write i.target image s' = (.error e, s'') →
      Session disk i s (.failed ("error writing '" ++ i.target ++ "': " ++ e.message), s'')
  | written {text : String} {image : Array UInt8} {s' s'' : σ} : disk.readText i.input s = (.ok text, s') →
      DotCom.compile text i.options = .ok image → disk.write i.target image s' = (.ok (), s'') →
      Session disk i s ({ exit := 0 }, s'')

theorem bind_state {α β : Type} {x : StateM σ α} {a : α} {s s' : σ} (h : x s = (a, s')) (f : α → StateM σ β) :
    (x >>= f) s = f a s' := by
  have run : (x >>= f) s = f (x s).1 (x s).2 := rfl
  rw [run, h]

theorem compileFile_session (disk : Disk (StateM σ)) (i : Invocation) (s : σ) :
    Session disk i s (compileFile disk i s) := by
  obtain ⟨r, s', read⟩ : ∃ r s', disk.readText i.input s = (r, s') := ⟨_, _, rfl⟩
  rw [compileFile, bind_state read]
  cases r with
  | error e => exact .unread read
  | ok text =>
    dsimp only
    cases compiled : DotCom.compile text i.options with
    | error e =>
      cases e with
      | rejected e => exact .refused read compiled
      | crashed => exact .crashed read compiled
    | ok image =>
      obtain ⟨w, s'', write⟩ : ∃ w s'', disk.write i.target image s' = (w, s'') := ⟨_, _, rfl⟩
      dsimp only
      rw [bind_state write]
      cases w with
      | error e => exact .unwritten read compiled write
      | ok _ => exact .written read compiled write

end

/-! ## File systems -/

/-- Bytes are decoded as the text whose encoding they are. -/
theorem decodeText_eq_ok_iff {bytes : Array UInt8} {text : String} :
    decodeText bytes = .ok text ↔ bytes = text.toUTF8.data := by
  unfold decodeText String.fromUTF8?
  by_cases valid : ByteArray.IsValidUTF8 ⟨bytes⟩
  · rw [dif_pos valid]
    constructor
    · intro h
      cases h
      rfl
    · rintro rfl
      rfl
  · rw [dif_neg valid]
    refine iff_of_false (fun h => by cases h) ?_
    rintro rfl
    exact valid text.isValidUTF8

namespace FileSystem

variable {σ ν : Type} (fs : FileSystem σ ν)

/-- The file at a path can be read, and its bytes are the text. -/
def Reads (s : σ) (path text : String) : Prop := ∃ s', fs.disk.read path s = (.ok text.toUTF8.data, s')

/-- The file at a path can be written. -/
def Writes (s : σ) (path : String) (bytes : Array UInt8) : Prop := ∃ s', fs.disk.write path bytes s = (.ok (), s')

variable {fs} {s s' : σ} {path text : String}

theorem readText_ok (h : fs.disk.readText path s = (.ok text, s')) : s' = s ∧ fs.Reads s path text := by
  obtain ⟨r, s'', read⟩ : ∃ r s', fs.disk.read path s = (r, s') := ⟨_, _, rfl⟩
  rw [Disk.readText, bind_state read] at h
  obtain ⟨decoded, rfl⟩ := Prod.mk.inj h
  cases r with
  | error e => cases decoded
  | ok bytes =>
    obtain rfl := decodeText_eq_ok_iff.1 decoded
    exact ⟨(fs.read_ok read).1, _, read⟩

theorem readText_error {e : DiskError} (h : fs.disk.readText path s = (.error e, s')) :
    s' = s ∧ ∀ text, ¬ fs.Reads s path text := by
  obtain ⟨r, s'', read⟩ : ∃ r s', fs.disk.read path s = (r, s') := ⟨_, _, rfl⟩
  rw [Disk.readText, bind_state read] at h
  obtain ⟨decoded, rfl⟩ := Prod.mk.inj h
  cases r with
  | error e =>
    refine ⟨fs.read_error read, ?_⟩
    rintro text ⟨s', other⟩
    cases read.symm.trans other
  | ok bytes =>
    refine ⟨(fs.read_ok read).1, ?_⟩
    rintro text ⟨s', other⟩
    cases read.symm.trans other
    cases (decodeText_eq_ok_iff.2 rfl).symm.trans decoded

theorem Reads.unique {text' : String} (h : fs.Reads s path text) (h' : fs.Reads s path text') : text = text' := by
  obtain ⟨s', read⟩ := h
  obtain ⟨s'', read'⟩ := h'
  obtain ⟨same, -⟩ := Prod.mk.inj (read.symm.trans read')
  exact Except.ok.inj ((decodeText_eq_ok_iff.2 rfl).symm.trans (decodeText_eq_ok_iff.2 (Except.ok.inj same)))

end FileSystem

/-! ## File trees -/

theorem exists_parts {path : String} {parent name : List Char} (h : EndsIn path.toList parent name) :
    ∃ front, FileTree.parts path = front ++ [String.ofList name] := by
  rw [FileTree.parts, h.text]
  rcases h.border with rfl | ⟨dirs, rfl⟩
  · exact ⟨[], by rw [List.nil_append, List.splitOn_eq_singleton h.clear]; rfl⟩
  · have cut : dirs ++ ['/'] ++ name = dirs ++ '/' :: name := List.append_cons .. |>.symm
    rw [cut, List.splitOn_append_cons_self, List.splitOn_eq_singleton h.clear, List.map_append]
    exact ⟨_, rfl⟩

namespace FileTree

variable {t t' : FileTree} {path : String} {bytes : Array UInt8}

/-- Only a last part that is a name leads to a file, or to where one can be made. -/
theorem walk_last {dir : Dir} {ps : List String} {place : Place} (h : t.walk dir ps = .ok place)
    (ne : place ≠ .directory) :
    ∃ front last, ps = front ++ [last] ∧ last ≠ "" ∧ last ≠ "." ∧ last ≠ ".." := by
  induction ps generalizing dir with
  | nil =>
    cases h
    exact absurd rfl ne
  | cons part rest ih =>
    have further {dir : Dir} (h : t.walk dir rest = .ok place) :
        ∃ front last, part :: rest = front ++ [last] ∧ last ≠ "" ∧ last ≠ "." ∧ last ≠ ".." := by
      obtain ⟨front, last, rfl, proper⟩ := ih h
      exact ⟨part :: front, last, rfl, proper⟩
    unfold walk at h
    split at h
    · exact further h
    · rename_i dots
      split at h
      · split at h <;> exact further h
      · rename_i up
        have here (empty : rest.isEmpty = true) :
            ∃ front last, part :: rest = front ++ [last] ∧ last ≠ "" ∧ last ≠ "." ∧ last ≠ ".." := by
          rw [List.isEmpty_iff] at empty
          exact ⟨[], part, by rw [empty]; rfl, fun e => dots (.inl e), fun e => dots (.inr e), up⟩
        split at h
        · cases h
        · dsimp only at h
          split at h
          · split at h
            · exact here ‹_›
            · cases h
          · split at h
            · exact further h
            · split at h
              · exact here ‹_›
              · cases h

theorem namesFile_of_walk {dir : Dir} {place : Place} (h : t.walk dir (parts path) = .ok place)
    (ne : place ≠ .directory) :
    NamesFile path.toList := by
  obtain ⟨parent, name, ends⟩ := exists_endsIn path.toList
  obtain ⟨front, last, split, empty, dot, up⟩ := walk_last h ne
  obtain ⟨front', split'⟩ := exists_parts ends
  obtain rfl : last = String.ofList name := by
    rw [split] at split'
    exact List.singleton_inj.1 (List.append_inj_right' split' rfl)
  refine ⟨parent, name, ends, ?_⟩
  rintro (rfl | rfl | rfl)
  · exact empty rfl
  · exact dot rfl
  · exact up rfl

theorem file?_put (t : FileTree) (name k : List String) (bytes : Array UInt8) :
    (t.put name bytes).file? k = if k = name then some bytes else t.file? k := by
  have others (same : k ≠ name) (files : List (List String × Array UInt8)) :
      (files.filter (·.1 != name)).lookup k = files.lookup k := by
    induction files with
    | nil => rfl
    | cons f files ih =>
      by_cases other : f.1 = name
      · have away : (k == f.1) = false := by simpa [other] using same
        rw [List.filter_cons_of_neg (by simp [other]), List.lookup_cons, away, ih]
      · rw [List.filter_cons_of_pos (by simpa using other), List.lookup_cons, List.lookup_cons, ih]
  rw [file?, put, List.lookup_cons]
  by_cases same : k = name
  · rw [if_pos same, beq_iff_eq.2 same]
  · rw [if_neg same, beq_eq_false_iff_ne.2 same]
    exact others same t.files

/-- The file that a path leads to, whether it is there or can be made. -/
def name? (t : FileTree) (path : String) : Option (List String) :=
  match t.walk (start path) (parts path) with
  | .ok (.file name) | .ok (.vacant name) => some name
  | _ => none

theorem walk_of_read (h : t.read path = .ok bytes) :
    ∃ name, t.walk (start path) (parts path) = .ok (.file name) ∧ t.file? name = some bytes := by
  unfold read at h
  cases walked : t.walk (start path) (parts path) with
  | error e =>
    rw [walked] at h
    cases h
  | ok place =>
    rw [walked] at h
    cases place with
    | directory | vacant name => cases h
    | file name =>
      cases found : t.file? name with
      | none =>
        simp only [bind, Except.bind, found] at h
        cases h
      | some bytes' =>
        simp only [bind, Except.bind, found] at h
        cases h
        exact ⟨name, rfl, found⟩

theorem walk_of_write (h : t.write path bytes = .ok t') :
    ∃ name, (t.walk (start path) (parts path) = .ok (.file name) ∨
      t.walk (start path) (parts path) = .ok (.vacant name)) ∧ t' = t.put name bytes := by
  unfold write at h
  dsimp only at h
  split at h
  -- A slash at the end: whatever it leads to, nothing is written.
  · cases above : t.walk (start path) ((parts path).reverse.dropWhile (· == "")).reverse.dropLast with
    | error e =>
      rw [above] at h
      cases h
    | ok place =>
      rw [above] at h
      cases place <;> cases h
  · cases walked : t.walk (start path) (parts path) with
    | error e =>
      rw [walked] at h
      cases h
    | ok place =>
      rw [walked] at h
      cases place with
      | directory => cases h
      | file name =>
        cases h
        exact ⟨name, .inl rfl, rfl⟩
      | vacant name =>
        cases h
        exact ⟨name, .inr rfl, rfl⟩

end FileTree

theorem treeDisk_write_ok {t t' : FileTree} {path : String} {bytes : Array UInt8} (h : t.write path bytes = .ok t') :
    treeDisk.write path bytes t = (.ok (), t') := by
  have got : (get : StateM FileTree FileTree) t = (t, t) := rfl
  unfold treeDisk
  dsimp only
  rw [bind_state got, h]
  rfl

theorem treeDisk_write_error {t : FileTree} {path : String} {bytes : Array UInt8} {e : DiskError}
    (h : t.write path bytes = .error e) : treeDisk.write path bytes t = (.error e, t) := by
  have got : (get : StateM FileTree FileTree) t = (t, t) := rfl
  unfold treeDisk
  dsimp only
  rw [bind_state got, h]
  rfl

/-- File trees are file systems. -/
def treeSystem : FileSystem FileTree (List String) where
  disk := treeDisk
  file? := FileTree.file?
  name? := FileTree.name?
  read_ok {path t t' bytes} h := by
    obtain ⟨read, rfl⟩ := Prod.mk.inj h
    obtain ⟨name, walked, found⟩ := FileTree.walk_of_read read
    exact ⟨rfl, FileTree.namesFile_of_walk walked (by simp), name, by rw [FileTree.name?, walked], found⟩
  read_error {path t t' e} h := (Prod.mk.inj h).2.symm
  write_ok {path bytes t t'} h := by
    cases written : t.write path bytes with
    | error e => cases (treeDisk_write_error written).symm.trans h
    | ok tree =>
      cases (treeDisk_write_ok written).symm.trans h
      obtain ⟨name, walked, rfl⟩ := FileTree.walk_of_write written
      have held : ∀ k, (t.put name bytes).file? k = if k = name then some bytes else t.file? k :=
        fun k => t.file?_put name k bytes
      have led : t.name? path = some name := by rcases walked with walked | walked <;> rw [FileTree.name?, walked]
      refine ⟨?_, name, led, by rw [held, if_pos rfl], fun k other => by rw [held, if_neg other]⟩
      rcases walked with walked | walked
      · exact FileTree.namesFile_of_walk walked (by simp)
      · exact FileTree.namesFile_of_walk walked (by simp)
  write_error {path bytes t t' e} h := by
    cases written : t.write path bytes with
    | error e =>
      cases (treeDisk_write_error written).symm.trans h
      rfl
    | ok tree => cases (treeDisk_write_ok written).symm.trans h

/-! ## The command -/

theorem Report.exit_failed (message : String) : (Report.failed message).exit ≠ 0 := show (1 : UInt8) ≠ 0 by decide

/-- What a session does to files: it succeeds where the input is read, compiles and the target is written; where it
    does not succeed, nothing has changed. -/
theorem Session.effect {σ ν : Type} {fs : FileSystem σ ν} {i : Invocation} {s s' : σ} {report : Report}
    (h : Session fs.disk i s (report, s')) :
    (report.exit ≠ 0 ∧ s' = s ∧ ∀ text image, fs.Reads s i.input text → DotCom.compile text i.options = .ok image →
      ¬ fs.Writes s i.target image) ∨
    (report.exit = 0 ∧ ∃ text image, fs.Reads s i.input text ∧ DotCom.compile text i.options = .ok image ∧
      fs.disk.write i.target image s = (.ok (), s')) := by
  have uncompiled {text : String} {e : Failure} {s' : σ} (read : fs.disk.readText i.input s = (.ok text, s'))
      (compiled : DotCom.compile text i.options = .error e) : s' = s ∧ ∀ text image, fs.Reads s i.input text →
        DotCom.compile text i.options = .ok image → ¬ fs.Writes s i.target image := by
    obtain ⟨same, reads⟩ := FileSystem.readText_ok read
    refine ⟨same, fun text image reads' compiled' => ?_⟩
    cases reads.unique reads'
    cases compiled.symm.trans compiled'
  cases h with
  | unread read =>
    obtain ⟨same, none⟩ := FileSystem.readText_error read
    exact .inl ⟨Report.exit_failed _, same, fun text image reads => absurd reads (none text)⟩
  | refused read compiled => exact .inl ⟨Report.exit_failed _, uncompiled read compiled⟩
  | crashed read compiled => exact .inl ⟨by decide, uncompiled read compiled⟩
  | unwritten read compiled write =>
    obtain ⟨rfl, reads⟩ := FileSystem.readText_ok read
    refine .inl ⟨Report.exit_failed _, fs.write_error write, fun text image reads' compiled' => ?_⟩
    cases reads.unique reads'
    cases compiled.symm.trans compiled'
    rintro ⟨s', write'⟩
    cases write.symm.trans write'
  | written read compiled write =>
    obtain ⟨rfl, reads⟩ := FileSystem.readText_ok read
    exact .inr ⟨rfl, _, _, reads, compiled, write⟩

/-- Where no other target is asked for and both files are there, the target is the input with the extension of
    images. -/
theorem Invocation.withExtension_target {i : Invocation} (default : i.output? = none) (input : NamesFile i.input.toList)
    (target : NamesFile i.target.toList) : WithExtension "com".toList i.input.toList i.target.toList := by
  have written : i.target.toList = withExtension i.input.toList "com".toList := by
    rw [Invocation.target, default, Option.getD_none, String.toList_ofList]
  rw [written] at target ⊢
  exact withExtension_of_namesFile input target

/-- The command leaves no partial result, whatever it is asked to compile. It exits with 0 exactly when the input is
    read as a text, the text compiles and the target can be written. When it does not, nothing has changed. When it
    does, the target holds the image of the text for the load base 0x100 and the given entry point and capacity, and
    every other file is as it was. The target is the file asked for, or else the input with the extension `com`; then
    it is the input itself exactly when that has the extension already. -/
theorem command_writes_whole_images {σ ν : Type} (fs : FileSystem σ ν) (s : σ) (input : String)
    (output? : Option String) (entry : String) (capacity : Nat) :
    let options : Options := { loadBase := 0x100, capacity, entryPoint := entry }
    let target := output?.getD (String.ofList (withExtension input.toList "com".toList))
    ∃ report s', compileFile fs.disk { input, output?, entry, capacity } s = (report, s') ∧
      (report.exit = 0 ↔ ∃ text image, fs.Reads s input text ∧ DotCom.compile text options = .ok image ∧
        fs.Writes s target image) ∧
      (report.exit ≠ 0 → s' = s) ∧
      (report.exit = 0 →
        (∃ text image source place, fs.name? s input = some source ∧ fs.file? s source = some text.toUTF8.data ∧
          DotCom.compile text options = .ok image ∧ fs.name? s target = some place ∧
          fs.file? s' place = some image ∧ ∀ other, other ≠ place → fs.file? s' other = fs.file? s other) ∧
        (output? = none → WithExtension "com".toList input.toList target.toList ∧
          (target = input ↔ HasExtension input.toList "com".toList))) := by
  intro options target
  let i : Invocation := { input, output?, entry, capacity }
  obtain ⟨report, s', ran⟩ : ∃ report s', compileFile fs.disk i s = (report, s') := ⟨_, _, rfl⟩
  have session := compileFile_session fs.disk i s
  rw [ran] at session
  refine ⟨report, s', ran, ?_⟩
  rcases session.effect with ⟨failed, same, none⟩ | ⟨done, text, image, reads, compiled, write⟩
  · refine ⟨iff_of_false failed ?_, fun _ => same, fun done => absurd done failed⟩
    rintro ⟨text, image, reads, compiled, writes⟩
    exact none text image reads compiled writes
  · refine ⟨iff_of_true done ⟨text, image, reads, compiled, s', write⟩, fun failed => absurd done failed, fun _ => ?_⟩
    obtain ⟨s'', read⟩ := reads
    -- Both paths end in names, since a file was read at the one and written at the other.
    obtain ⟨-, named, source, led, held⟩ := fs.read_ok read
    obtain ⟨named', place, led', held', others⟩ := fs.write_ok write
    refine ⟨⟨text, image, source, place, led, held, compiled, led', held', others⟩, fun default => ?_⟩
    have extended : WithExtension "com".toList input.toList target.toList :=
      Invocation.withExtension_target (i := i) default named named'
    refine ⟨extended, ?_⟩
    rw [← extended.eq_self_iff (by decide), String.toList_inj]

/-- A text with another entry point, in just the room that its image takes, compiled into a new file beside it. -/
theorem command_writes_beside_its_input :
    let text := "int start() \x7b\x7d"
    let t : FileTree := ⟨[(["d", "a"], text.toUTF8.data)]⟩
    ∃ report t' image,
      compileFile treeDisk { input := "d/a", output? := some "d/b", entry := "start", capacity := 17 } t =
        (report, t') ∧
      report.exit = 0 ∧ DotCom.compile text { capacity := 17, entryPoint := "start" } = .ok image ∧ image.size = 17 ∧
      t'.file? ["d", "b"] = some image ∧ t'.file? ["d", "a"] = some text.toUTF8.data := by
  intro text t
  let options : Options := { capacity := 17, entryPoint := "start" }
  obtain ⟨image, compiled, size⟩ : ∃ image, DotCom.compile text options = .ok image ∧ image.size = 17 :=
    ⟨#[184, 9, 1, 255, 208, 180, 76, 205, 33, 85, 137, 229, 131, 196, 0, 93, 195], by decide +kernel, rfl⟩
  have read : t.read "d/a" = .ok text.toUTF8.data := by decide +kernel
  have held : t.file? ["d", "a"] = some text.toUTF8.data := by decide +kernel
  have walked : t.walk (FileTree.start "d/a") (FileTree.parts "d/a") = .ok (.file ["d", "a"]) := by decide +kernel
  have walked' : t.walk (FileTree.start "d/b") (FileTree.parts "d/b") = .ok (.vacant ["d", "b"]) := by decide +kernel
  have named : t.name? "d/a" = some ["d", "a"] := by rw [FileTree.name?, walked]
  have named' : t.name? "d/b" = some ["d", "b"] := by rw [FileTree.name?, walked']
  have written : t.write "d/b" image = .ok (t.put ["d", "b"] image) := by
    rw [FileTree.write, if_neg (by decide +kernel), walked']
    rfl
  have reads : treeSystem.Reads t "d/a" text := ⟨t, congrArg (fun r => (r, t)) read⟩
  have writes : treeSystem.Writes t "d/b" image := ⟨_, treeDisk_write_ok written⟩
  obtain ⟨report, t', ran, ok, -, done⟩ := command_writes_whole_images treeSystem t "d/a" (some "d/b") "start" 17
  have exit : report.exit = 0 := ok.2 ⟨_, _, reads, compiled, writes⟩
  obtain ⟨⟨text', image', source, place, led, held', compiled', led', holds, others⟩, -⟩ := done exit
  obtain rfl : ["d", "a"] = source := Option.some.inj (named.symm.trans led)
  obtain rfl : ["d", "b"] = place := Option.some.inj (named'.symm.trans led')
  have same : text.toUTF8.data = text'.toUTF8.data := Option.some.inj (held.symm.trans held')
  obtain rfl : text = text' :=
    Except.ok.inj ((decodeText_eq_ok_iff.2 rfl).symm.trans (decodeText_eq_ok_iff.2 same))
  obtain rfl : image = image' := Except.ok.inj (compiled.symm.trans compiled')
  exact ⟨report, t', image, ran, exit, compiled, size, holds, (others ["d", "a"] (by decide)).trans held⟩

end DotCom.Command
