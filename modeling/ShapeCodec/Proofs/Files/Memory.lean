import ShapeCodec.Files.Tree
import ShapeCodec.Proofs.Files.Laws
import ShapeCodec.Proofs.Results

/-! # Files in memory are lawful

Folders are never lost when a text is written, so the path that led to the place of a file leads to
it afterwards, and the text that has been written is found there.
-/

namespace ShapeCodec

namespace FileTree

variable {t u : FileTree} {path text part : String} {location next : List String}

@[simp] theorem needFolder_eq_ok_iff :
    t.needFolder location = .ok () ↔ t.hasFolder location = true := by
  unfold needFolder at?
  cases t.hasFolder location with
  | true => simp
  | false => cases t.text? location <;> simp

/-! ## More folders -/

theorem step_mono (h : ∀ l, t.hasFolder l = true → u.hasFolder l = true)
    (hs : t.step location part = .ok next) : u.step location part = .ok next := by
  obtain ⟨⟨⟩, hn, hs⟩ := bind_eq_ok_iff.mp hs
  exact bind_eq_ok_iff.mpr ⟨(), needFolder_eq_ok_iff.mpr (h _ (needFolder_eq_ok_iff.mp hn)), hs⟩

theorem foldlM_step_mono (h : ∀ l, t.hasFolder l = true → u.hasFolder l = true)
    {parts : List String} (hs : parts.foldlM t.step location = .ok next) :
    parts.foldlM u.step location = .ok next := by
  induction parts generalizing location with
  | nil => exact hs
  | cons part parts ih =>
    obtain ⟨l, hl, hs⟩ := bind_eq_ok_iff.mp hs
    exact bind_eq_ok_iff.mpr ⟨l, step_mono h hl, ih hs⟩

theorem walk_mono {parts : List String} (hw : t.walk path parts = .ok next)
    (hh : u.here = t.here) (h : ∀ l, t.hasFolder l = true → u.hasFolder l = true) :
    u.walk path parts = .ok next := by
  unfold walk at hw ⊢
  cases hf : FilePath.fault? path with
  | some fault =>
    rw [hf] at hw
    cases hw
  | none =>
    rw [hf] at hw
    rw [hh]
    exact foldlM_step_mono h hw

theorem walk_concat {parts : List String} (hw : t.walk path parts = .ok location)
    (hs : t.step location part = .ok next) : t.walk path (parts ++ [part]) = .ok next := by
  unfold walk at hw ⊢
  split at hw
  · cases hw
  · simp only [List.foldlM_append, List.foldlM_cons, List.foldlM_nil]
    exact bind_eq_ok_iff.mpr ⟨location, hw, bind_eq_ok_iff.mpr ⟨next, hs, rfl⟩⟩

/-! ## A text in its place -/

def put (t : FileTree) (location : List String) (text : String) : FileTree :=
  { t with files := (location, text) :: t.files.filter (·.1 != location) }

@[simp] theorem text?_put : (t.put location text).text? location = some text := by
  simp [put, text?]

theorem hasFolder_put {other : List String} (h : t.hasFolder other = true) :
    (t.put location text).hasFolder other = true := by
  unfold hasFolder at h ⊢
  rcases Bool.or_eq_true_iff.mp h with h | h
  · exact Bool.or_eq_true_iff.mpr (.inl h)
  · apply Bool.or_eq_true_iff.mpr ∘ .inr
    obtain ⟨f, hf, hb⟩ := List.any_eq_true.mp h
    by_cases he : f.1 = location
    · exact List.any_eq_true.mpr ⟨(location, text), List.mem_cons_self, he ▸ hb⟩
    · exact List.any_eq_true.mpr
        ⟨f, List.mem_cons_of_mem _ (List.mem_filter.mpr ⟨hf, by simpa using he⟩), hb⟩

theorem hasFolder_put_self (h : t.hasFolder location = false) :
    (t.put location text).hasFolder location = false := by
  unfold hasFolder at h ⊢
  obtain ⟨hlisted, hfiles⟩ := Bool.or_eq_false_iff.mp h
  refine Bool.or_eq_false_iff.mpr ⟨hlisted, ?_⟩
  rw [List.any_eq_false] at hfiles ⊢
  intro f hf
  rcases List.mem_cons.mp hf with rfl | hf
  · simp
  · exact hfiles f (List.mem_of_mem_filter hf)

theorem exists_of_write (h : t.write path text = .ok u) :
    ∃ folder name location, (FilePath.parts path).getLast? = some name ∧
      t.walk path (FilePath.parts path).dropLast = .ok folder ∧
      t.step folder name = .ok location ∧ FilePath.endsWithSlash path = false ∧
      t.hasFolder location = false ∧ t.put location text = u := by
  obtain ⟨⟨folder, name?⟩, ha, h⟩ := bind_eq_ok_iff.mp h
  obtain ⟨l, hw, ha⟩ := bind_eq_ok_iff.mp ha
  obtain ⟨⟨⟩, -, ha⟩ := bind_eq_ok_iff.mp ha
  obtain ⟨rfl, rfl⟩ := Prod.mk.inj (pure_eq_ok_iff.mp ha)
  cases hn : (FilePath.parts path).getLast?.filter fun part => part != "." && part != ".." with
  | none =>
    rw [hn] at h
    cases h
  | some name =>
    rw [hn] at h
    dsimp only at h
    split at h
    · cases h
    · rename_i hslash
      obtain ⟨location, hs, h⟩ := bind_eq_ok_iff.mp h
      split at h
      · cases h
      · rename_i hl
        exact ⟨l, name, location, (Option.filter_eq_some_iff.mp hn).1, hw, hs,
          by simpa using hslash, by simpa using hl, pure_eq_ok_iff.mp h⟩

/-- A text that has been written is read from its path. -/
theorem read_of_write (h : t.write path text = .ok u) : u.read path = .ok text := by
  obtain ⟨folder, name, location, hn, hw, hs, hslash, hl, rfl⟩ := exists_of_write h
  have hwalk : (t.put location text).walk path (FilePath.parts path) = .ok location := by
    have hfolder : (t.put location text).walk path (FilePath.parts path).dropLast = .ok folder :=
      walk_mono hw rfl fun _ => hasFolder_put
    rw [← List.dropLast_append_getLast? name hn]
    exact walk_concat hfolder (step_mono (fun _ => hasFolder_put) hs)
  have hfind : (t.put location text).find path = .ok (location, .file text) := by
    refine bind_eq_ok_iff.mpr ⟨location, hwalk, ?_⟩
    rw [at?, hasFolder_put_self hl, text?_put, hslash]
    rfl
  exact bind_eq_ok_iff.mpr ⟨_, hfind, rfl⟩

theorem keeps_update {γ : Type} {view : FileTree → γ}
    {operation : FileTree → Except FileFault FileTree}
    (h : ∀ t u, operation t = .ok u → view u = view t) : Keeps view (update operation) := by
  intro t
  change view (update operation t).2 = view t
  unfold update
  split
  · rename_i u hu
    exact h t u hu
  · rfl

theorem files_of_makeFolder (h : t.makeFolder path = .ok u) : u.files = t.files := by
  obtain ⟨⟨folder, name?⟩, -, h⟩ := bind_eq_ok_iff.mp h
  cases name? with
  | none => cases h
  | some name =>
    obtain ⟨l, -, h⟩ := bind_eq_ok_iff.mp h
    split at h
    · cases h
    · obtain rfl := pure_eq_ok_iff.mp h
      rfl

/-! ## The laws -/

theorem lawful_folderAccess : folderAccess.Lawful where
  isThere _ _ := rfl
  isFolder _ _ := rfl
  names _ _ := rfl

/-- Files in memory can be relied on, with their texts as the contents. -/
theorem lawful_access : access.Lawful FileTree.files where
  read _ _ := rfl
  isFolder _ _ := rfl
  glob := lawful_folderAccess.keeps_glob
  makeFolder path := keeps_update fun _ _ => files_of_makeFolder
  unwritten path text t fault h := by
    change (update (·.write path text) t).1 = _ at h
    change (update (·.write path text) t).2.files = _
    unfold update at h ⊢
    split at h
    · cases h
    · rfl
  written path text t h := by
    change (update (·.write path text) t).1 = _ at h
    change (update (·.write path text) t).2.read path = _
    unfold update at h ⊢
    split at h
    · rename_i u hw
      exact read_of_write hw
    · cases h

/-! ## Searching -/

/-- A part without a leading dot leads to the names in a folder that it takes. -/
theorem run_expand_wild {t : FileTree} {depth : Nat} {atoms : List Atom} {path : String}
    {names : List String} (hd : (PatternPart.wild atoms).dotNames = [])
    (hf : t.isFolder path = true) (hn : t.names path = .ok names) :
    (Pattern.expand folderAccess false (depth + 1) [.wild atoms] path).run t =
      (((names.mergeSort fun a b => decide (a ≤ b)).filter (PatternPart.wild atoms).fits).map
        fun name => .ok (Pattern.enter path name), t) := by
  have each : ∀ name, (if (PatternPart.wild atoms).fits name then
      Pattern.accept folderAccess false (Pattern.enter path name)
      else pure []).run t = (if (PatternPart.wild atoms).fits name then
        [.ok (Pattern.enter path name)] else [], t) := by
    intro name
    split <;> rfl
  have isFolder : (folderAccess.isFolder path).run t = (true, t) := by
    rw [← hf]
    rfl
  have hnames : (folderAccess.names path).run t = (.ok names, t) := by
    rw [← hn]
    rfl
  rw [Pattern.expand, run_bind isFolder]
  · simp only [hd, List.mapM_nil, pure_bind, PatternPart.isAnywhere, Bool.not_true,
      Bool.false_eq_true, if_false, List.isEmpty_nil, if_true]
    rw [run_bind hnames, run_bind (run_mapM each _), StateT.run_pure]
    congr 1
    induction names.mergeSort fun a b => decide (a ≤ b) with
    | nil => rfl
    | cons name names ih => by_cases hname : (PatternPart.wild atoms).fits name <;> simp_all
  · simp

theorem run_glob_wild {t : FileTree} {pattern : String} {atoms : List Atom} {names : List String}
    (hp : Pattern.ofText pattern = .ok ⟨".", [.wild atoms], false⟩)
    (hd : (PatternPart.wild atoms).dotNames = []) (hf : t.isFolder "." = true)
    (hn : t.names "." = .ok names) :
    (access.glob pattern).run t = (.ok (((names.mergeSort fun a b => decide (a ≤ b)).filter
      (PatternPart.wild atoms).fits).map .ok), t) := by
  change (Pattern.glob folderAccess pattern).run t = _
  unfold Pattern.glob Pattern.search
  simp only [hp, List.length_singleton]
  rw [run_bind (run_expand_wild hd hf hn)]
  rfl

end FileTree

end ShapeCodec
