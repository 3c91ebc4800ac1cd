import ShapeCodec.Files.Pattern

/-! # Laws of files

What a command relies on when it reads and writes files that are the state of a computation. Reading
leaves everything as it is, and the contents of files change only where a text is written and can be
read from then on.
-/

namespace ShapeCodec

variable {σ γ α β : Type}

theorem run_bind {action : StateM σ α} {next : α → StateM σ β} {s s' : σ} {a : α}
    (h : action.run s = (a, s')) : (action >>= next).run s = (next a).run s' := by
  rw [StateT.run_bind, h]
  rfl

theorem run_mapM {f : β → StateM σ α} {g : β → α} {s : σ} (h : ∀ x, (f x).run s = (g x, s))
    (xs : List β) : (xs.mapM f).run s = (xs.map g, s) := by
  induction xs with
  | nil => rfl
  | cons x xs ih =>
    rw [List.mapM_cons, run_bind (h x), run_bind ih]
    rfl

/-- An action keeps what there is to be seen of the state, whatever comes of it. -/
def Keeps (view : σ → γ) (action : StateM σ α) : Prop :=
  ∀ s, view (action.run s).2 = view s

section Keeps

variable {view : σ → γ}

theorem keeps_pure (a : α) : Keeps view (pure a) := fun _ => rfl

theorem Keeps.bind {action : StateM σ α} {next : α → StateM σ β} (h : Keeps view action)
    (hn : ∀ a, Keeps view (next a)) : Keeps view (action >>= next) :=
  fun s => (hn _ _).trans (h s)

theorem Keeps.ite {c : Prop} [Decidable c] {action other : StateM σ α} (h : Keeps view action)
    (ho : Keeps view other) : Keeps view (if c then action else other) := by
  split
  · exact h
  · exact ho

theorem keeps_mapM {f : β → StateM σ α} {xs : List β} (h : ∀ x ∈ xs, Keeps view (f x)) :
    Keeps view (xs.mapM f) := by
  induction xs with
  | nil => exact keeps_pure []
  | cons x xs ih =>
    obtain ⟨hx, hxs⟩ := List.forall_mem_cons.mp h
    rw [List.mapM_cons]
    exact hx.bind fun y => (ih hxs).bind fun ys => keeps_pure (y :: ys)

theorem Keeps.of_id {action : StateM σ α} (h : Keeps id action) (view : σ → γ) :
    Keeps view action := fun s => congrArg view (h s)

end Keeps

/-! ## Searching -/

structure FolderAccess.Lawful (folders : FolderAccess (StateM σ)) : Prop where
  isThere : ∀ path, Keeps id (folders.isThere path)
  isFolder : ∀ path, Keeps id (folders.isFolder path)
  names : ∀ path, Keeps id (folders.names path)

namespace FolderAccess.Lawful

variable {folders : FolderAccess (StateM σ)} (h : folders.Lawful)
include h

theorem keeps_accept (foldersOnly : Bool) (path : String) :
    Keeps id (Pattern.accept folders foldersOnly path) := by
  apply Keeps.ite
  · exact (h.isFolder path).bind fun there => (keeps_pure _).ite (keeps_pure _)
  · exact keeps_pure _

theorem keeps_expand (foldersOnly : Bool) (depth : Nat) (parts : List PatternPart)
    (path : String) : Keeps id (Pattern.expand folders foldersOnly depth parts path) := by
  induction depth generalizing parts path with
  | zero => exact keeps_pure []
  | succ depth ih =>
    cases parts with
    | nil => exact keeps_pure []
    | cons part rest =>
      have reach : ∀ rest next, Keeps id (if List.isEmpty rest then
          Pattern.accept folders foldersOnly next
        else Pattern.expand folders foldersOnly depth rest next) :=
        fun rest next => (h.keeps_accept foldersOnly next).ite (ih rest next)
      cases part
      case literal name =>
        rw [Pattern.expand]
        apply Keeps.ite
        · exact (h.isFolder path).bind fun there => (reach rest _).ite (keeps_pure [])
        · exact (h.isThere _).bind fun there => (reach rest _).ite (keeps_pure [])
      all_goals
        rw [Pattern.expand]
        case x_3 => nofun
        apply (h.isFolder path).bind
        intro folder
        apply (keeps_pure []).ite
        apply (h.names path).bind
        rintro (fault | names)
        · exact keeps_pure _
        apply (keeps_mapM fun name _ => reach rest _).bind
        intro dots
        refine Keeps.bind (keeps_mapM fun name _ => ?_) fun found => keeps_pure _
        apply Keeps.ite
        · apply (h.isFolder _).bind
          intro folder
          have deeper : ∀ parts next here, Keeps id (if folder then do
              let deeper ← Pattern.expand folders foldersOnly depth parts next
              pure (here ++ deeper)
            else do
              let deeper ← pure []
              pure (here ++ deeper)) :=
            fun parts next here => ((ih parts next).bind fun _ => keeps_pure _).ite (keeps_pure _)
          dsimp only
          split
          · exact deeper _ _ _
          · exact ((reach _ _).bind fun here => deeper _ _ _).ite (deeper _ _ _)
        · exact (reach rest _).ite (keeps_pure [])

theorem keeps_glob (pattern : String) : Keeps id (Pattern.glob folders pattern) := by
  unfold Pattern.glob
  cases Pattern.ofText pattern with
  | ok p => exact (h.keeps_expand _ _ _ _).bind fun found => keeps_pure _
  | error fault => exact keeps_pure _

end FolderAccess.Lawful

/-- Files whose contents are seen in the state. Looking and searching change nothing, a folder that
is made and a text that cannot be written leave the contents as they are, and a text that has been
written is read. -/
structure FileAccess.Lawful (files : FileAccess (StateM σ)) (contents : σ → γ) : Prop where
  read : ∀ path, Keeps id (files.read path)
  isFolder : ∀ path, Keeps id (files.isFolder path)
  glob : ∀ pattern, Keeps id (files.glob pattern)
  makeFolder : ∀ path, Keeps contents (files.makeFolder path)
  unwritten : ∀ path text s fault, ((files.write path text).run s).1 = .error fault →
    contents ((files.write path text).run s).2 = contents s
  written : ∀ path text s, ((files.write path text).run s).1 = .ok () →
    ((files.read path).run ((files.write path text).run s).2).1 = .ok text

namespace FileAccess.Lawful

variable {files : FileAccess (StateM σ)} {contents : σ → γ} (h : files.Lawful contents)
include h

/-! ## Folders -/

theorem keeps_settle (path : String) (made : Except FileFault Unit) :
    Keeps contents (files.settle path made) := by
  cases made with
  | ok => exact keeps_pure _
  | error fault =>
    apply ((h.isFolder path).of_id contents).bind
    intro there
    cases there <;> exact keeps_pure _

theorem keeps_makeChain (paths : List String) : Keeps contents (files.makeChain paths) := by
  induction paths with
  | nil => exact keeps_pure _
  | cons path outer ih =>
    apply (h.makeFolder path).bind
    intro made
    split
    · apply ih.bind
      rintro (fault | _)
      · exact keeps_pure _
      · exact (h.makeFolder path).bind (h.keeps_settle path)
    · exact h.keeps_settle path made

theorem keeps_makeFolders (path : String) : Keeps contents (files.makeFolders path) :=
  (keeps_pure _).ite (h.keeps_makeChain _)

end FileAccess.Lawful

end ShapeCodec
