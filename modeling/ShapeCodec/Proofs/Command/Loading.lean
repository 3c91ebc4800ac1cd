import ShapeCodec.Proofs.Command.Arguments
import ShapeCodec.Proofs.Command.Looking
import ShapeCodec.Proofs.Document.Coverage
import ShapeCodec.Proofs.Files.Memory
import ShapeCodec.Proofs.Json.Lines

/-! # All or nothing

A request to load looks at all of its files before it makes any output. So either every text that it
asks for is there, and they come out together and in order, or it fails with nothing changed.
-/

namespace ShapeCodec

variable {σ : Type}

/-! ## What is asked for -/

def FileAccess.Holds (files : FileAccess (StateM σ)) (s : σ) (path text : String) : Prop :=
  ((files.read path).run s).1 = .ok text

/-- The paths that an input stands for. A pattern stands for what it leads to, when that is anything
and no folder on the way is beyond listing. Any other text stands for itself. -/
inductive StandsFor (files : FileAccess (StateM σ)) (s : σ) : String → List String → Prop
  | path {input : String} (h : Request.isPattern input = false) : StandsFor files s input [input]
  | pattern {input : String} {paths : List String} (h : Request.isPattern input = true)
    (hg : ((files.glob input).run s).1 = .ok (paths.map .ok)) (hn : paths ≠ []) :
    StandsFor files s input paths

section StandsFor

variable {files : FileAccess (StateM σ)} {s : σ} {input : String} {paths : List String}

theorem standsFor_path_iff (hi : Request.isPattern input = false) :
    StandsFor files s input paths ↔ [input] = paths := by
  constructor
  · intro h
    cases h with
    | path => rfl
    | pattern h =>
      rw [hi] at h
      cases h
  · rintro rfl
    exact .path hi

theorem StandsFor.ne_nil (h : StandsFor files s input paths) : paths ≠ [] := by
  cases h with
  | path => exact List.cons_ne_nil _ _
  | pattern _ _ hn => exact hn

end StandsFor

/-- A text is saved at a path: the folder that it lies in is made, and then the text is written. -/
inductive Saves (files : FileAccess (StateM σ)) (s : σ) (path text : String) : σ → Prop
  | bare {after : σ} (hp : FilePath.parent? path = none)
    (hw : (files.write path text).run s = (.ok (), after)) : Saves files s path text after
  | folder {folder : String} {between after : σ} (hp : FilePath.parent? path = some folder)
    (hf : (files.makeFolders folder).run s = (.ok (), between))
    (hw : (files.write path text).run between = (.ok (), after)) : Saves files s path text after

namespace LoadRequest

variable (files : FileAccess (StateM σ)) (s : σ) (r : LoadRequest)

/-- The text that the file at a path is turned into. -/
def Yields (shape : Shape) (path output : String) : Prop :=
  ∃ text v j, files.Holds s path text ∧ load r.settings shape text = .ok v ∧
    encode r.settings shape v = .ok j ∧ (if r.spread then j.writeSpread else j.write) = output

/-- The texts that are asked for: one for each path that the inputs stand for, in their order. -/
inductive Delivers : List String → Prop
  | mk {document : String} {shape : Shape} {paths : List (List String)} {texts : List String}
    (hd : files.Holds s r.document document) (hs : Shape.ofDocument document = .ok shape)
    (hp : List.Forall₂ (StandsFor files s) r.inputs paths)
    (ht : List.Forall₂ (r.Yields files s shape) paths.flatten texts) : Delivers texts

def gather : ExceptT CommandFault (StateM σ) (List String) := do
  let shape ← Request.readShape files r.document
  let paths ← r.inputs.mapM (Request.resolve files)
  paths.flatten.mapM (Request.convertFile files r shape)

def deliver (texts : List String) : ExceptT CommandFault (StateM σ) String :=
  match r.out? with
  | some path => do
    Request.save files path ("\n".intercalate texts)
    return ""
  | none => return "\n".intercalate texts ++ "\n"

theorem run_load : Request.run files (.load r) = gather files r >>= deliver files r := by
  simp only [Request.run, gather, bind_assoc]
  rfl

variable {files s r}

theorem convert_eq_ok_iff {shape : Shape} {path text output : String} :
    r.convert shape path text = .ok output ↔ ∃ v j, load r.settings shape text = .ok v ∧
      encode r.settings shape v = .ok j ∧
      (if r.spread then j.writeSpread else j.write) = output := by
  unfold convert
  simp only [bind_eq_ok_iff, mapError_eq_ok_iff, pure_eq_ok_iff, exists_and_left]

theorem gathered_eq_ok_iff {found : List (Except GlobFault String)} {paths : List String} :
    Request.gathered found = .ok paths ↔ found = paths.map .ok := by
  unfold Request.gathered
  rw [mapM_eq_ok_iff]
  induction found generalizing paths with
  | nil => cases paths <;> simp
  | cons f found ih => cases paths <;> simp_all

section Laws

variable {γ : Type} {contents : σ → γ} (h : files.Lawful contents)
include h

theorem finds_readShape (path : String) : Finds s (Request.readShape files path)
    fun shape => ∃ document, files.Holds s path document ∧
      Shape.ofDocument document = .ok shape := by
  apply (finds_attempt (h.read path) _).bind
  intro document _
  exact (finds_except _).congr fun shape => mapError_eq_ok_iff.symm

theorem finds_resolve (input : String) :
    Finds s (Request.resolve files input) (StandsFor files s input) := by
  unfold Request.resolve
  cases hi : Request.isPattern input with
  | false => exact (finds_pure [input]).congr fun paths => standsFor_path_iff hi
  | true =>
    have some_path : ∀ paths : List String, Finds s (if paths.isEmpty then
        throw (.emptyPattern input) else pure paths : ExceptT CommandFault (StateM σ) (List String))
        fun out => paths ≠ [] ∧ paths = out := by
      intro paths
      cases paths with
      | nil => exact (finds_throw _).congr (by simp)
      | cons path paths => exact (finds_pure _).congr (by simp)
    have look : Finds s _ _ := (finds_attempt (h.glob input) .badPattern).bind fun found _ =>
      (finds_except ((Request.gathered found).mapError .failedSearch)).bind fun paths _ =>
        some_path paths
    apply look.congr
    intro out
    constructor
    · intro hp
      cases hp with
      | path h =>
        rw [hi] at h
        cases h
      | pattern _ hg hn =>
        have hpaths := gathered_eq_ok_iff.mpr (Eq.refl (out.map Except.ok))
        exact ⟨_, hg, _, mapError_eq_ok_iff.mpr hpaths, hn, rfl⟩
    · rintro ⟨found, hg, paths, hpaths, hn, rfl⟩
      rw [gathered_eq_ok_iff.mp (mapError_eq_ok_iff.mp hpaths)] at hg
      exact .pattern hi hg hn

theorem finds_convertFile (shape : Shape) (path : String) :
    Finds s (Request.convertFile files r shape path) (r.Yields files s shape path) := by
  have look : Finds s _ _ := (finds_attempt (h.read path) (.unreadableSource path)).bind
    fun text _ => finds_except (r.convert shape path text)
  apply look.congr
  intro output
  constructor
  · rintro ⟨text, v, j, ht, hv, hj, rfl⟩
    exact ⟨text, ht, convert_eq_ok_iff.mpr ⟨v, j, hv, hj, rfl⟩⟩
  · rintro ⟨text, ht, hc⟩
    obtain ⟨v, j, hv, hj, ho⟩ := convert_eq_ok_iff.mp hc
    exact ⟨text, v, j, ht, hv, hj, ho⟩

/-- Looking at the files finds the texts that are asked for. -/
theorem finds_gather : Finds s (gather files r) (r.Delivers files s) := by
  have look : Finds s (gather files r) _ := (finds_readShape h r.document).bind fun shape _ =>
    (finds_mapM fun input _ => finds_resolve h input).bind fun paths _ =>
      finds_mapM fun path _ => finds_convertFile h shape path
  apply look.congr
  intro texts
  constructor
  · rintro ⟨hd, hs, hp, ht⟩
    exact ⟨_, ⟨_, hd, hs⟩, _, hp, ht⟩
  · rintro ⟨shape, ⟨document, hd, hs⟩, paths, hp, ht⟩
    exact ⟨hd, hs, hp, ht⟩

/-! ## What is made -/

theorem run_save_of_saves {path output : String} {after : σ}
    (hs : Saves files s path output after) :
    (Request.save files path output).run.run s = (.ok (), after) ∧
      files.Holds after path output := by
  have write : ∀ {between}, (files.write path output).run between = (.ok (), after) →
      (Request.attempt (.failedWrite path) (files.write path output)).run.run between =
          (.ok (), after) ∧ files.Holds after path output := by
    intro between hw
    have hread := h.written path output between
    rw [hw] at hread
    rw [run_attempt, hw]
    exact ⟨rfl, hread rfl⟩
  unfold Request.save
  cases hs with
  | bare hp hw =>
    rw [hp]
    exact write hw
  | folder hp hf hw =>
    rw [hp]
    dsimp only
    rw [run_bind_ok (a := ()) (by rw [run_attempt, hf]; rfl)]
    exact write hw

/-- Where a text cannot be saved, the contents of all files stay as they are. -/
theorem run_save_of_not_saves {path output : String}
    (hs : ∀ after, ¬ Saves files s path output after) :
    ∃ fault after, (Request.save files path output).run.run s = (.error fault, after) ∧
      contents after = contents s := by
  have write : ∀ between, contents between = contents s →
      (∀ after, (files.write path output).run between ≠ (.ok (), after)) →
      ∃ fault after, (Request.attempt (.failedWrite path) (files.write path output)).run.run
        between = (.error fault, after) ∧ contents after = contents s := by
    intro between hb hne
    rw [run_attempt]
    cases hw : ((files.write path output).run between).1 with
    | ok => exact (hne _ (Prod.ext hw rfl)).elim
    | error fault => exact ⟨_, _, rfl, (h.unwritten _ _ _ fault hw).trans hb⟩
  unfold Request.save
  cases hp : FilePath.parent? path with
  | none => exact write s rfl fun after hw => hs after (.bare hp hw)
  | some folder =>
    have hb := h.keeps_makeFolders folder s
    have hrun := run_attempt (s := s) .noFolder (files.makeFolders folder)
    dsimp only
    cases hf : ((files.makeFolders folder).run s).1 with
    | error fault =>
      rw [hf] at hrun
      exact ⟨_, _, run_bind_error hrun, hb⟩
    | ok =>
      rw [hf] at hrun
      rw [run_bind_ok hrun]
      exact write _ hb fun after hw => hs after (.folder hp (Prod.ext hf rfl) hw)

end Laws

theorem linesOf_output {texts : List String} (hd : r.Delivers files s texts)
    (hr : r.spread = false) (hi : r.inputs ≠ []) : linesOf ("\n".intercalate texts) = texts := by
  obtain ⟨-, -, hp, ht⟩ := hd
  apply linesOf_intercalate
  · intro text hm
    obtain ⟨path, -, _, v, j, -, -, -, rfl⟩ := ht.exists_of_mem_right hm
    rw [hr, if_neg Bool.false_ne_true, Json.write, String.toList_ofList]
    exact j.newline_not_mem_chars
  · rintro rfl
    obtain ⟨input, hi⟩ := List.exists_mem_of_ne_nil _ hi
    obtain ⟨paths, hm, hs⟩ := hp.exists_of_mem_left hi
    exact hs.ne_nil (List.flatten_eq_nil_iff.mp (List.forall₂_nil_right_iff.mp ht) paths hm)

end LoadRequest

/-- A request to load is all or nothing. When some text that it asks for is not there, it fails and
nothing has changed. Else the texts come out together and in order, on the screen or in a file.
Where the file cannot be saved, the request fails and the contents of files are what they were.
Compact texts are the lines of the output, and a command line always asks for some. -/
theorem load_all_or_nothing {files : FileAccess (StateM σ)} {γ : Type} {contents : σ → γ}
    (h : files.Lawful contents) (r : LoadRequest) (s : σ) :
    ((∀ texts, ¬ r.Delivers files s texts) →
      ∃ fault, (Request.run files (.load r)).run.run s = (.error fault, s)) ∧
    (∀ texts, r.Delivers files s texts →
      (r.out? = none → (Request.run files (.load r)).run.run s =
        (.ok ("\n".intercalate texts ++ "\n"), s)) ∧
      (∀ path, r.out? = some path →
        (∀ after, Saves files s path ("\n".intercalate texts) after →
          (Request.run files (.load r)).run.run s = (.ok "", after) ∧
            files.Holds after path ("\n".intercalate texts)) ∧
        ((∀ after, ¬ Saves files s path ("\n".intercalate texts) after) →
          ∃ fault after, (Request.run files (.load r)).run.run s = (.error fault, after) ∧
            contents after = contents s)) ∧
      (r.spread = false → r.inputs ≠ [] → linesOf ("\n".intercalate texts) = texts)) ∧
    ∀ words, Request.ofArguments words = .ok (.load r) → r.inputs ≠ [] := by
  obtain ⟨result, hg, hf⟩ := LoadRequest.finds_gather (r := r) (s := s) h
  rw [LoadRequest.run_load]
  refine ⟨fun hn => ?faulty, fun texts hd => ?_, fun words => Request.inputs_ne_nil⟩
  case faulty =>
    cases result with
    | error fault => exact ⟨fault, run_bind_error hg⟩
    | ok texts => exact (hn texts ((hf texts).mpr rfl)).elim
  obtain rfl := (hf texts).mp hd
  rw [run_bind_ok hg]
  unfold LoadRequest.deliver
  refine ⟨fun ho => ?screen, fun path ho => ?file, LoadRequest.linesOf_output hd⟩
  case screen =>
    rw [ho]
    rfl
  case file =>
    rw [ho]
    dsimp only
    constructor
    · intro after hs
      obtain ⟨hsave, hholds⟩ := LoadRequest.run_save_of_saves h hs
      exact ⟨run_bind_ok hsave, hholds⟩
    · intro hs
      obtain ⟨fault, after, hsave, hkept⟩ := LoadRequest.run_save_of_not_saves h hs
      exact ⟨fault, after, run_bind_error hsave, hkept⟩

def desk : FileTree where
  here := ["desk"]
  files := [(["desk", "int.json"], (Json.map [("type", .str "int")]).write),
    (["desk", "a.json"], (Json.int 1).write), (["desk", "b.json"], (Json.int 2).write)]
  folders := []

def integers (inputs : List String) (out? : Option String) : LoadRequest :=
  ⟨"int.json", inputs, .standard, false, out?⟩

theorem run_glob_desk {pattern : String} {atoms : List Atom}
    (hp : Pattern.ofText pattern = .ok ⟨".", [.wild atoms], false⟩)
    (hd : (PatternPart.wild atoms).dotNames = []) :
    ((FileTree.access.glob pattern).run desk).1 =
      .ok ((["a.json", "b.json", "int.json"].filter (PatternPart.wild atoms).fits).map .ok) := by
  have names : desk.names "." = .ok ["int.json", "a.json", "b.json"] := rfl
  have sorted : (["int.json", "a.json", "b.json"].mergeSort fun a b => decide (a ≤ b)) =
      ["a.json", "b.json", "int.json"] := by simp [List.mergeSort]
  rw [FileTree.run_glob_wild hp hd rfl names, sorted]

theorem ofDocument_desk : Shape.ofDocument (Json.map [("type", .str "int")]).write = .ok .int := by
  have plain : Describing.PlainDefaults (.map [("type", .str "int")]) :=
    Describing.plainDefaults_map_iff.mpr ⟨by simp, List.forall_mem_singleton.mpr
      (Describing.plainDefaults_of_parts_eq_nil rfl)⟩
  exact Shape.ofDocument_of_describes
    (.plain (by simp [Describing.plainTags]) Describing.tagged_self)
    (Json.spelledBy_write (.map [("type", .str "int")])) (by decide) plain

theorem integers_yields {inputs : List String} {out? : Option String} {path : String} {i : Int64}
    (hp : FileTree.access.Holds desk path (Json.int i).write) :
    (integers inputs out?).Yields FileTree.access desk .int path (Json.int i).write := by
  have hread : Json.read (Json.int i).write = .ok (.int i) := Json.read_write_of_scalarText? rfl
  exact ⟨_, .int i, .int i, hp, load_eq_ok_iff.mpr ⟨_, hread, rfl⟩, rfl, rfl⟩

theorem integers_delivers (out? : Option String) :
    (integers ["?.json"] out?).Delivers FileTree.access desk ["1", "2"] := by
  have hp : Pattern.ofText "?.json" =
      .ok ⟨".", [.wild (.anyChar :: ".json".toList.map .char)], false⟩ := by cbv
  have hg : ((FileTree.access.glob "?.json").run desk).1 = .ok (["a.json", "b.json"].map .ok) :=
    run_glob_desk hp rfl
  have hdoc : FileTree.access.Holds desk "int.json" (Json.map [("type", .str "int")]).write := rfl
  have one : (Json.int 1).write = "1" := by cbv
  have two : (Json.int 2).write = "2" := by cbv
  rw [← one, ← two]
  exact .mk hdoc ofDocument_desk (.cons (.pattern rfl hg (List.cons_ne_nil _ _)) .nil)
    (.cons (integers_yields rfl) (.cons (integers_yields rfl) .nil))

theorem integers_not_delivers (out? : Option String) (texts : List String) :
    ¬ (integers ["a.json", "c*"] out?).Delivers FileTree.access desk texts := by
  rintro ⟨-, -, hp, -⟩
  have hparts : Pattern.ofText "c*" = .ok ⟨".", [.wild [.char 'c', .anyChars]], false⟩ := by cbv
  obtain ⟨paths, -, hc⟩ := hp.exists_of_mem_left (List.mem_cons_of_mem _ List.mem_cons_self)
  cases hc with
  | path h => exact absurd h (by decide)
  | pattern _ hg hn =>
    rw [run_glob_desk hparts rfl] at hg
    cases paths with
    | nil => exact hn rfl
    | cons => cases hg

theorem load_all_or_nothing_integers :
    (Request.run FileTree.access (.load (integers ["?.json"] none))).run.run desk =
        (.ok "1\n2\n", desk) ∧
      linesOf "1\n2" = ["1", "2"] ∧
      (∃ after, (Request.run FileTree.access
          (.load (integers ["?.json"] (some "out/all.json")))).run.run desk =
          (.ok "", after) ∧ FileTree.access.Holds after "out/all.json" "1\n2") ∧
      ∃ fault, (Request.run FileTree.access
        (.load (integers ["a.json", "c*"] (some "a.json")))).run.run desk =
        (.error fault, desk) := by
  have joined : "\n".intercalate ["1", "2"] = "1\n2" := by cbv
  have hone := load_all_or_nothing FileTree.lawful_access (integers ["?.json"] none) desk
  have htwo := load_all_or_nothing FileTree.lawful_access
    (integers ["?.json"] (some "out/all.json")) desk
  have hthree := load_all_or_nothing FileTree.lawful_access
    (integers ["a.json", "c*"] (some "a.json")) desk
  obtain ⟨hscreen, -, hlines⟩ := hone.2.1 _ (integers_delivers _)
  obtain ⟨-, hfile, -⟩ := htwo.2.1 _ (integers_delivers _)
  rw [joined] at hscreen hlines hfile
  refine ⟨hscreen rfl, hlines rfl (List.cons_ne_nil _ _), ?_, hthree.1 (integers_not_delivers _)⟩
  have saves : Saves FileTree.access desk "out/all.json" "1\n2" _ := .folder rfl rfl rfl
  exact ⟨_, (hfile _ rfl).1 _ saves⟩

end ShapeCodec
