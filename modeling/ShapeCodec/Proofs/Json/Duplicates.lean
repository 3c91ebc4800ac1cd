import Mathlib.Order.WellFounded
import ShapeCodec.Proofs.Json.Keys

/-! # The first key that is repeated

A text of the grammar is read to its end, or up to a key that is there already. So no repeated key
is passed over, and the one that is refused is the first of the whole text, however deep it stands.
-/

namespace ShapeCodec

open Grammar Lexeme

namespace KeyOccurrence

variable {o o' : KeyOccurrence} {text : List Char}

/-- Of the repeated keys of a text, the one that ends first. -/
structure FirstRepeated (o : KeyOccurrence) (text : List Char) : Prop where
  inText : o.InText text
  repeated : o.Repeated
  first : ∀ o' : KeyOccurrence, o'.InText text → o'.Repeated → o' ≠ o →
    o'.behind.length < o.behind.length

theorem InText.quote_suffix (h : o.InText text) : '"' :: o.behind <:+ text := by
  obtain ⟨start, hb, hk⟩ := h
  exact hk.quote_suffix.trans hb.suffix

theorem InText.unique (h : o.InText text) (h' : o'.InText text)
    (hn : o'.behind.length = o.behind.length) : o = o' := by
  obtain ⟨start, hb, hk⟩ := h
  obtain ⟨start', hb', hk'⟩ := h'
  obtain rfl := hk.start_eq_of_keyIn hb hb' hk'
  exact hk.unique hk' hn

theorem exists_firstRepeated (h : o.InText text) (hr : o.Repeated) :
    ∃ o : KeyOccurrence, o.FirstRepeated text := by
  let repeated : Set KeyOccurrence := {o | o.InText text ∧ o.Repeated}
  obtain ⟨o, ⟨ho, hr⟩, hmin⟩ := (measure fun o : KeyOccurrence =>
    text.length - o.behind.length).wf.has_min repeated ⟨o, h, hr⟩
  refine ⟨o, ho, hr, fun o' ho' hr' hne => ?_⟩
  have hle : ¬ text.length - o'.behind.length < text.length - o.behind.length := hmin o' ⟨ho', hr'⟩
  have hn : o'.behind.length ≠ o.behind.length := fun hn => hne (ho.unique ho' hn).symm
  have hlen := ho'.quote_suffix.length_le
  rw [List.length_cons] at hlen
  omega

def fault (o : KeyOccurrence) (path : Path) : ReadFault :=
  ⟨.duplicateKey o.key, some (path ++ o.path), .leavingMap o.behind⟩

theorem InText.exists_position (h : o.InText text) : ∃ consumed colon,
    text = consumed ++ ':' :: colon ∧ Blanks o.behind (':' :: colon) ∧
      (o.fault []).toTextFault text = ⟨.duplicateKey o.key, some o.path, .after consumed⟩ := by
  have hsuffix := (List.suffix_cons _ _).trans h.quote_suffix
  obtain ⟨start, -, hk⟩ := h
  obtain ⟨colon, hc⟩ := hk.exists_colon
  obtain ⟨consumed, rfl⟩ := hc.suffix.trans hsuffix
  refine ⟨consumed, colon, rfl, hc, ?_⟩
  have hplace : Place.leavingMap o.behind = .before (':' :: colon) := by
    rw [Place.leavingMap, dropWhile_of_blanks hc, List.dropWhile_cons_of_neg (by decide)]
    rfl
  simp [fault, ReadFault.toTextFault, hplace, Place.before, Place.position]

end KeyOccurrence

namespace Reading

variable {state next : Reading} {context : List Frame} {cs mid start stop colon rest : List Char}
  {j : Json} {xs : List Json} {es entries : List (String × Json)}

/-! ## Refusal -/

/-- The reader stops at a repeated key, one of the given ones, with a text behind it that is not
too short. -/
def Refuses (state : Reading) (cs : List Char) (path : Path) (keys : KeyOccurrence → Prop)
    (least : Nat) : Prop :=
  ∃ o, keys o ∧ o.Repeated ∧ least ≤ o.behind.length ∧
    run state cs = .error (o.fault path)

section Refuses

variable {state' : Reading} {cs' : List Char} {path : Path} {keys keys' : KeyOccurrence → Prop}
  {least least' : Nat}

theorem Refuses.of_run_eq (h : Refuses state cs path keys least)
    (he : run state' cs' = run state cs) :
    Refuses state' cs' path keys least := by
  obtain ⟨o, ho, hr, hl, hrun⟩ := h
  exact ⟨o, ho, hr, hl, he.trans hrun⟩

theorem Refuses.mono (h : Refuses state cs path keys least) (hl : least' ≤ least) :
    Refuses state cs path keys least' := by
  obtain ⟨o, ho, hr, hle, hrun⟩ := h
  exact ⟨o, ho, hr, hl.trans hle, hrun⟩

theorem Refuses.inside {f : Frame} (h : Refuses state cs (Frame.path (f :: context)) keys least)
    (hk : ∀ o, keys o → keys' (o.inside f.segment)) :
    Refuses state cs (Frame.path context) keys' least := by
  obtain ⟨o, ho, hr, hl, hrun⟩ := h
  refine ⟨o.inside f.segment, hk o ho, hr, hl, hrun.trans ?_⟩
  simp [KeyOccurrence.fault, KeyOccurrence.inside, Frame.path]

end Refuses

/-! ## Steps -/

theorem run_token {t : Token} (ht : TokenText cs t rest)
    (hn : ∀ n, t = .number n → Numeral.Ends rest)
    (hs : step .data state ⟨.token t, cs, rest⟩ = .ok next) : run state cs = run next rest :=
  run_of_step (ofChars_of_tokenText ht hn) hs

theorem AwaitsKey.step_repeated (h : AwaitsKey state entries context) {key : String}
    (hk : key ∈ entries.map (·.1)) :
    step .data state ⟨.token (.str key), cs, rest⟩ =
      .error ⟨.duplicateKey key, some (Frame.path context), .leavingMap rest⟩ := by
  have hany : entries.any (·.1 == key) = true := by simpa using hk
  have hs : ∀ atEnd, stepKey .data entries context atEnd ⟨.token (.str key), cs, rest⟩ =
      .error ⟨.duplicateKey key, some (Frame.path context), .leavingMap rest⟩ := fun _ =>
    if_pos ⟨rfl, hany⟩
  cases h with
  | first => exact hs .endInMap
  | next => exact hs .endInValue

variable {begin s : List Char}

theorem refuses_repeated_key (hes : Past (EntryText ValueText) begin es cs)
    (before : Blanks cs ('"' :: start)) (hs : StringText start s stop)
    (after : Blanks stop (':' :: colon)) (hk : String.ofList s ∈ es.map (·.1))
    (ha : AwaitsKey state es.reverse context) :
    Refuses state cs (Frame.path context) (KeyIn ('{' :: begin)) stop.length := by
  refine ⟨_, .own hes before hs after, hk, le_rfl, ?_⟩
  have hk' : String.ofList s ∈ es.reverse.map (·.1) := by simpa using hk
  have hc : ∀ json, state ≠ .complete json := by
    rintro json rfl
    cases ha
  rw [run_of_blanks before, run_of_step_error (ofChars_of_tokenText (.str hs) nofun) hc
    (ha.step_repeated hk'), KeyOccurrence.fault, List.append_nil]

theorem run_new_key (before : Blanks cs ('"' :: start)) (hs : StringText start s stop)
    (after : Blanks stop (':' :: colon)) (hk : String.ofList s ∉ entries.map (·.1))
    (ha : AwaitsKey state entries context) :
    run state cs =
      run (.value (.map entries (String.ofList s) :: context)) colon := by
  have hn : ∀ e ∈ entries, e.1 ≠ String.ofList s := fun e he hek =>
    hk (hek ▸ List.mem_map_of_mem he)
  rw [run_of_blanks before, run_token (.str hs) nofun (ha.step_eq rfl fun _ => hn),
    run_of_blanks after, run_token .colon nofun rfl]

/-! ## Pieces -/

/-- Wherever the value is waited for, its text is passed, or one of its keys is refused. -/
def Decided (j : Json) : Prop :=
  ∀ {state : Reading} {context : List Frame} {cs rest : List Char}, ValueText cs j rest →
    Awaits state context → context.length + j.depth ≤ maxDepth → Numeral.Ends rest →
    run state cs = run (afterValue j context) rest ∨
      Refuses state cs (Frame.path context) (KeyIn cs) (rest.length + 1)

theorem Decided.padded (hj : Decided j) (h : Padded ValueText cs j rest)
    (ha : Awaits state context) (hd : context.length + j.depth ≤ maxDepth)
    (hr : Numeral.Ends rest) :
    run state cs = run (afterValue j context) rest ∨
      ∃ start, Blanks cs start ∧
        Refuses state cs (Frame.path context) (KeyIn start) (rest.length + 1) := by
  obtain ⟨hb, hv, hs⟩ := h
  have he : run state cs = run state _ := run_of_blanks hb
  rcases hj hv ha hd (ends_of_blanks hs hr) with hpass | hrefuse
  · left
    rw [he, hpass, run_of_blanks hs]
  · right
    exact ⟨_, hb, (hrefuse.of_run_eq he).mono (Nat.succ_le_succ hs.suffix.length_le)⟩

theorem run_item (hxs : Past (Padded ValueText) begin xs cs) (h : Padded ValueText cs j rest)
    (hj : Decided j) (hd : context.length + 1 + j.depth ≤ maxDepth) (hr : Numeral.Ends rest)
    (ha : Awaits state (.list xs.reverse :: context)) :
    run state cs = run (.afterItem (j :: xs.reverse) context) rest ∨
      Refuses state cs (Frame.path context) (KeyIn ('[' :: begin)) (rest.length + 1) := by
  rcases hj.padded h ha hd hr with hpass | ⟨start, hb, hrefuse⟩
  · exact .inl hpass
  · right
    refine hrefuse.inside fun o ho => ?_
    have hseg : (Frame.list xs.reverse).segment = .index xs.length := by simp [Frame.segment]
    rw [hseg]
    exact .item hxs hb ho

theorem run_entry {e : String × Json} (hes : Past (EntryText ValueText) begin es cs)
    (h : EntryText ValueText cs e rest) (hj : Decided e.2)
    (hd : context.length + 1 + e.2.depth ≤ maxDepth) (hr : Numeral.Ends rest)
    (ha : AwaitsKey state es.reverse context) :
    run state cs = run (.afterEntry (e :: es.reverse) context) rest ∨
      Refuses state cs (Frame.path context) (KeyIn ('{' :: begin)) (rest.length + 1) := by
  obtain ⟨before, hs, after, hv⟩ := h
  rename_i s stop colon
  by_cases hk : String.ofList s ∈ es.map (·.1)
  · right
    refine (refuses_repeated_key hes before hs after hk ha).mono ?_
    have h₁ := after.suffix.length_le
    have h₂ := hv.suffix.length_le
    rw [List.length_cons] at h₁
    omega
  · have he := run_new_key before hs after (by simpa using hk) ha
    have hroom : (Frame.map es.reverse (String.ofList s) :: context).length + _ ≤ maxDepth := hd
    rcases hj.padded hv .value hroom hr with hpass | ⟨inner, gap, hrefuse⟩
    · exact .inl (he.trans hpass)
    · right
      exact (hrefuse.inside fun o ho => .value hes before hs after gap ho).of_run_eq he

/-! ## Pieces that are passed -/

/-- Pieces are passed one after the other, when each of them is or has a key in it refused. Behind
the comma of a piece the reader waits for the next one, with `waits` for what it keeps of those
before. -/
theorem run_past {α : Type} {piece : List Char → α → List Char → Prop} {path : Path}
    {keys : KeyOccurrence → Prop} {pieces done : List α} (waits : List α → Reading → Prop)
    (h : Past piece cs pieces mid) (hs : ∀ cs x rest, piece cs x rest → rest <:+ cs)
    (hpiece : ∀ x ∈ pieces, ∀ done cs rest state, Past piece begin done cs →
      piece cs x (',' :: rest) → waits done state →
        (∃ next, waits (done ++ [x]) next ∧ run state cs = run next rest) ∨
          Refuses state cs path keys (rest.length + 1))
    (hdone : Past piece begin done cs) (ha : waits done state) :
    (∃ next, waits (done ++ pieces) next ∧ run state cs = run next mid) ∨
      Refuses state cs path keys (mid.length + 1) := by
  induction h generalizing done state with
  | refl =>
    rw [List.append_nil]
    exact .inl ⟨state, ha, rfl⟩
  | next hx hxs ih =>
    obtain ⟨hpiece, hpieces⟩ := List.forall_mem_cons.mp hpiece
    rcases hpiece _ _ _ _ hdone hx ha with ⟨next, hnext, he⟩ | hrefuse
    · rcases ih hpieces (hdone.concat hx) hnext with ⟨last, hlast, hrun⟩ | hrefuse
      · rw [List.append_assoc] at hlast
        exact .inl ⟨last, hlast, he.trans hrun⟩
      · exact .inr (hrefuse.of_run_eq he)
    · exact .inr (hrefuse.mono (Nat.succ_le_succ (hxs.suffix hs).length_le))

theorem run_next_item (hxs : Past (Padded ValueText) begin xs cs)
    (h : Padded ValueText cs j (',' :: rest)) (hj : Decided j)
    (hd : context.length + 1 + j.depth ≤ maxDepth)
    (ha : Awaits state (.list xs.reverse :: context)) :
    (∃ next, Awaits next (.list (xs ++ [j]).reverse :: context) ∧
      run state cs = run next rest) ∨
    Refuses state cs (Frame.path context) (KeyIn ('[' :: begin)) (rest.length + 1) := by
  rcases run_item hxs h hj hd (ends_cons (.inl rfl) rest) ha with hpass | hrefuse
  · left
    rw [List.reverse_concat]
    exact ⟨_, .nextItem, hpass.trans (run_token .comma (by simp) rfl)⟩
  · exact .inr (hrefuse.mono (Nat.le_succ _))

theorem run_next_entry {e : String × Json} (hes : Past (EntryText ValueText) begin es cs)
    (h : EntryText ValueText cs e (',' :: rest)) (hj : Decided e.2)
    (hd : context.length + 1 + e.2.depth ≤ maxDepth) (ha : AwaitsKey state es.reverse context) :
    (∃ next, AwaitsKey next (es ++ [e]).reverse context ∧
      run state cs = run next rest) ∨
    Refuses state cs (Frame.path context) (KeyIn ('{' :: begin)) (rest.length + 1) := by
  rcases run_entry hes h hj hd (ends_cons (.inl rfl) rest) ha with hpass | hrefuse
  · left
    rw [List.reverse_concat]
    exact ⟨_, .next, hpass.trans (run_token .comma (by simp) rfl)⟩
  · exact .inr (hrefuse.mono (Nat.le_succ _))

/-! ## Values -/

theorem run_openList (ha : Awaits state context) (hopen : context.length < maxDepth)
    (cs : List Char) : run state ('[' :: cs) = run (.firstItem context) cs :=
  run_token .openList nofun ((ha.step_eq (t := .openList) rfl nofun).trans (if_pos hopen))

theorem run_openMap (ha : Awaits state context) (hopen : context.length < maxDepth)
    (cs : List Char) : run state ('{' :: cs) = run (.firstKey context) cs :=
  run_token .openMap nofun ((ha.step_eq (t := .openMap) rfl nofun).trans (if_pos hopen))

theorem run_into_list (hxs : Past (Padded ValueText) cs xs mid) (hj : ∀ x ∈ xs, Decided x)
    (hd : ∀ x ∈ xs, context.length + 1 + x.depth ≤ maxDepth) (ha : Awaits state context)
    (hopen : context.length < maxDepth) :
    (∃ next, Awaits next (.list xs.reverse :: context) ∧
      run state ('[' :: cs) = run next mid) ∨
    Refuses state ('[' :: cs) (Frame.path context) (KeyIn ('[' :: cs)) (mid.length + 1) := by
  have hbegin := run_openList ha hopen cs
  rcases run_past (fun xs next => Awaits next (.list xs.reverse :: context)) hxs
    (fun _ _ _ => Padded.suffix) (fun x hx _ _ _ _ hdone h ha =>
      run_next_item hdone h (hj x hx) (hd x hx) ha) (.refl _) .firstItem with
    ⟨next, hnext, hrun⟩ | hrefuse
  · exact .inl ⟨next, hnext, hbegin.trans hrun⟩
  · exact .inr (hrefuse.of_run_eq hbegin)

theorem run_into_map (hes : Past (EntryText ValueText) cs es mid) (hj : ∀ e ∈ es, Decided e.2)
    (hd : ∀ e ∈ es, context.length + 1 + e.2.depth ≤ maxDepth) (ha : Awaits state context)
    (hopen : context.length < maxDepth) :
    (∃ next, AwaitsKey next es.reverse context ∧
      run state ('{' :: cs) = run next mid) ∨
    Refuses state ('{' :: cs) (Frame.path context) (KeyIn ('{' :: cs)) (mid.length + 1) := by
  have hbegin := run_openMap ha hopen cs
  rcases run_past (fun es next => AwaitsKey next es.reverse context) hes
    (fun _ _ _ => EntryText.suffix) (fun e he _ _ _ _ hdone h ha =>
      run_next_entry hdone h (hj e he) (hd e he) ha) (.refl _) .first with
    ⟨next, hnext, hrun⟩ | hrefuse
  · exact .inl ⟨next, hnext, hbegin.trans hrun⟩
  · exact .inr (hrefuse.of_run_eq hbegin)

theorem run_list (hxs : Separated (Padded ValueText) ']' cs xs rest) (hj : ∀ x ∈ xs, Decided x)
    (ha : Awaits state context) (hd : context.length + (Json.list xs).depth ≤ maxDepth) :
    run state ('[' :: cs) = run (afterValue (.list xs) context) rest ∨
      Refuses state ('[' :: cs) (Frame.path context) (KeyIn ('[' :: cs)) (rest.length + 1) := by
  obtain ⟨hopen, hd⟩ := Json.add_depth_list_le_iff.mp hd
  obtain ⟨before, x, mid, rfl, hpast, hlast⟩ := hxs.exists_past
  obtain ⟨hj, hjx⟩ := List.forall_mem_append.mp hj
  obtain ⟨hd, hdx⟩ := List.forall_mem_append.mp hd
  have hlen : rest.length + 1 ≤ mid.length := hlast.suffix.length_le
  rcases run_into_list hpast hj hd ha hopen with ⟨next, hnext, hrun⟩ | hrefuse
  · rcases run_item hpast hlast (hjx x (by simp)) (hdx x (by simp))
      (ends_cons (.inr (.inl rfl)) rest) hnext with hpass | hrefuse
    · left
      rw [hrun, hpass, run_token .closeList nofun rfl, List.reverse_cons, List.reverse_reverse]
    · exact .inr ((hrefuse.of_run_eq hrun).mono (by rw [List.length_cons]; omega))
  · exact .inr (hrefuse.mono (by omega))

theorem run_map (hes : Separated (EntryText ValueText) '}' cs es rest)
    (hj : ∀ e ∈ es, Decided e.2) (ha : Awaits state context)
    (hd : context.length + (Json.map es).depth ≤ maxDepth) :
    run state ('{' :: cs) = run (afterValue (.map es) context) rest ∨
      Refuses state ('{' :: cs) (Frame.path context) (KeyIn ('{' :: cs)) (rest.length + 1) := by
  obtain ⟨hopen, hd⟩ := Json.add_depth_map_le_iff.mp hd
  obtain ⟨before, e, mid, rfl, hpast, hlast⟩ := hes.exists_past
  obtain ⟨hj, hje⟩ := List.forall_mem_append.mp hj
  obtain ⟨hd, hde⟩ := List.forall_mem_append.mp hd
  have hlen : rest.length + 1 ≤ mid.length := hlast.suffix.length_le
  rcases run_into_map hpast hj hd ha hopen with ⟨next, hnext, hrun⟩ | hrefuse
  · rcases run_entry hpast hlast (hje e (by simp)) (hde e (by simp))
      (ends_cons (.inr (.inr rfl)) rest) hnext with hpass | hrefuse
    · left
      rw [hrun, hpass, run_token .closeMap nofun rfl, List.reverse_cons, List.reverse_reverse]
    · exact .inr ((hrefuse.of_run_eq hrun).mono (by rw [List.length_cons]; omega))
  · exact .inr (hrefuse.mono (by omega))

theorem decided (j : Json) : Decided j := by
  -- On the tree: a bracket is decided when each of its parts is, whatever stands before them.
  induction j using Json.inductionParts with
  | step j ih =>
  intro state context cs rest h ha hd hr
  have scalar : ∀ {t : Token}, TokenText cs t rest → t ≠ .closeList →
      stepValue .data context ⟨.token t, cs, rest⟩ = .ok (afterValue j context) →
      run state cs = run (afterValue j context) rest := fun ht hc hs =>
    run_token ht (fun _ _ => hr) ((ha.step_eq rfl hc).trans hs)
  cases h with
  | null => exact .inl (scalar .null nofun rfl)
  | true => exact .inl (scalar .true nofun rfl)
  | false => exact .inl (scalar .false nofun rfl)
  | str hs => exact .inl (scalar (.str hs) nofun rfl)
  | int h hi =>
    obtain ⟨n, -, rfl, -⟩ := h.exists_numeral
    exact .inl (scalar (.number h) nofun (by rw [← ofNumeral_eq_int h hi]; rfl))
  | number h hn =>
    exact .inl (scalar (.number h) nofun (by rw [← ofNumeral_eq_number h hn]; rfl))
  | emptyList h =>
    left
    rw [run_openList ha hd _, run_of_blanks h, run_token .closeList nofun rfl]
  | emptyMap h =>
    left
    rw [run_openMap ha hd _, run_of_blanks h, run_token .closeMap nofun rfl]
  | list hxs => exact run_list hxs ih ha hd
  | map hes => exact run_map hes (fun e he => ih e.2 (Json.mem_parts_map he)) ha hd

/-! ## The first of all -/

theorem run_to_item {o : KeyOccurrence} (hv : ValueText ('[' :: cs) j rest) (hr : Numeral.Ends rest)
    (ha : Awaits state context) (hd : context.length + j.depth ≤ maxDepth)
    (hxs : Past (Padded ValueText) cs xs mid) (before : Blanks mid start) (ho : KeyIn start o) :
    (∃ next y c after, Awaits next (.list xs.reverse :: context) ∧
      context.length + 1 + y.depth ≤ maxDepth ∧ Stop c ∧ Padded ValueText mid y (c :: after) ∧
      run state ('[' :: cs) = run next mid) ∨
    Refuses state ('[' :: cs) (Frame.path context) (KeyIn ('[' :: cs)) (mid.length + 1) := by
  obtain ⟨y, more, c, after, rfl, hc, hy, -⟩ := hv.exists_item hr hxs before ho
  obtain ⟨hopen, hdepth⟩ := Json.add_depth_list_le_iff.mp hd
  rcases run_into_list hxs (fun x _ => decided x)
    (fun x hx => hdepth x (List.mem_append_left _ hx)) ha hopen with
    ⟨next, hnext, hrun⟩ | hrefuse
  · exact .inl ⟨next, y, c, after, hnext, hdepth y (by simp), hc, hy, hrun⟩
  · exact .inr hrefuse

theorem run_to_entry (hv : ValueText ('{' :: cs) j rest) (hr : Numeral.Ends rest)
    (ha : Awaits state context) (hd : context.length + j.depth ≤ maxDepth)
    (hes : Past (EntryText ValueText) cs es mid) (before : Blanks mid ('"' :: start)) :
    (∃ next e c after, AwaitsKey next es.reverse context ∧
      context.length + 1 + e.2.depth ≤ maxDepth ∧ Stop c ∧
      EntryText ValueText mid e (c :: after) ∧
      run state ('{' :: cs) = run next mid) ∨
    Refuses state ('{' :: cs) (Frame.path context) (KeyIn ('{' :: cs)) (mid.length + 1) := by
  obtain ⟨e, more, c, after, rfl, hc, he, -⟩ := hv.exists_entry hr hes before
  obtain ⟨hopen, hdepth⟩ := Json.add_depth_map_le_iff.mp hd
  rcases run_into_map hes (fun e _ => decided e.2)
    (fun e he => hdepth e (List.mem_append_left _ he)) ha hopen with
    ⟨next, hnext, hrun⟩ | hrefuse
  · exact .inl ⟨next, e, c, after, hnext, hdepth e (by simp), hc, he, hrun⟩
  · exact .inr hrefuse

/-- No repeated key is passed over: the reader has refused one by then. -/
theorem refuses_of_keyIn {o : KeyOccurrence} (h : KeyIn cs o) (hr : o.Repeated)
    (hv : ValueText cs j rest) (he : Numeral.Ends rest) (ha : Awaits state context)
    (hd : context.length + j.depth ≤ maxDepth) :
    Refuses state cs (Frame.path context) (KeyIn cs) o.behind.length := by
  induction h generalizing j rest state context with
  | own hes before hs after =>
    rcases run_to_entry hv he ha hd hes before with ⟨next, _, _, _, hnext, -, -, -, hrun⟩ | hrefuse
    · exact (refuses_repeated_key hes before hs after hr hnext).of_run_eq hrun
    · exact hrefuse.mono (Nat.le_succ_of_le (endsIn_own before hs after).1)
  | @item xs cs mid start o hxs before ho ih =>
    rcases run_to_item hv he ha hd hxs before ho with
      ⟨next, _, c, _, hnext, hroom, hc, hy, hrun⟩ | hrefuse
    · obtain ⟨before', hv', after'⟩ := hy
      have hends := ends_of_blanks after' (ends_cons hc _)
      obtain rfl := ho.start_eq before before' hv' hends
      rw [run_of_blanks before] at hrun
      refine ((ih hr hv' hends hnext hroom).of_run_eq hrun).inside fun o' ho' => ?_
      have hseg : (Frame.list xs.reverse).segment = .index xs.length := by simp [Frame.segment]
      rw [hseg]
      exact .item hxs before ho'
    · exact hrefuse.mono (Nat.le_succ_of_le (endsIn_item before ho).1)
  | @value es cs mid start s stop colon inner o hes before hs after gap ho ih =>
    rcases run_to_entry hv he ha hd hes before with
      ⟨next, e, c, _, hnext, hroom, hc, hentry, hrun⟩ | hrefuse
    · obtain ⟨-, before', hv', after'⟩ := hentry.padded before hs after
      have hends := ends_of_blanks after' (ends_cons hc _)
      obtain rfl := ho.start_eq gap before' hv' hends
      -- The key of the entry itself is refused when it is repeated, and stands before `o`.
      by_cases hk : String.ofList s ∈ es.map (·.1)
      · exact ((refuses_repeated_key hes before hs after hk hnext).of_run_eq hrun).mono
          (length_lt_of_value after gap ho).le
      · have hopen := run_new_key before hs after (by simpa using hk) hnext
        have hroom : (Frame.map es.reverse (String.ofList s) :: context).length + _ ≤ maxDepth :=
          hroom
        rw [hopen, run_of_blanks gap] at hrun
        exact ((ih hr hv' hends .value hroom).of_run_eq hrun).inside fun o' ho' =>
          .value hes before hs after gap ho'
    · exact hrefuse.mono (Nat.le_succ_of_le (endsIn_value before hs after gap ho).1)

/-- The first repeated key of a text is the one that is refused. -/
theorem run_of_firstRepeated {text : List Char} {o : KeyOccurrence} (h : j.SpelledBy text)
    (hd : j.depth ≤ maxDepth) (ho : o.FirstRepeated text) :
    run (.value []) text = .error (o.fault []) := by
  obtain ⟨hb, hv, ha⟩ := h
  obtain ⟨start, hb', hk⟩ := ho.inText
  have hends := ends_of_blanks ha nofun
  obtain rfl := hk.start_eq hb' hb hv hends
  have hawaits : Awaits (.value []) [] := .value
  obtain ⟨o', ho', hr, hle, hrun⟩ := refuses_of_keyIn hk ho.repeated hv hends hawaits
    (by simpa using hd)
  have he : o' = o := by
    by_contra hne
    exact (ho.first o' ⟨_, hb, ho'⟩ hr hne).not_ge hle
  rw [run_of_blanks hb, hrun, he]
  rfl

theorem exists_firstRepeated {text : List Char} (h : j.SpelledBy text) (hd : j.depth ≤ maxDepth)
    (hu : ¬ j.UniqueKeys) : ∃ o : KeyOccurrence, o.FirstRepeated text := by
  obtain ⟨hb, hv, ha⟩ := h
  have hawaits : Awaits (.value []) [] := .value
  rcases decided j hv hawaits (by simpa using hd) (ends_of_blanks ha nofun) with
    hpass | ⟨o, ho, hr, -, -⟩
  · have hrun : run (.value []) text = .ok (j, []) := by
      rw [run_of_blanks hb, hpass, run_of_blanks ha]
      exact run_complete j []
    exact (hu (padded_of_run hrun).2.2).elim
  · exact KeyOccurrence.exists_firstRepeated ⟨_, hb, ho⟩ hr

end Reading

/-- The key that is reported is the first of all that are repeated, at any depth: it is named, with
the path of the map that holds it and the position before the colon that stands behind it. -/
theorem Json.read_first_repeated_key {text : String} {j : Json} (h : j.SpelledBy text.toList)
    (hd : j.depth ≤ 127) (hu : ¬ j.UniqueKeys) :
    ∃ (o : KeyOccurrence) (consumed colon : List Char), o.FirstRepeated text.toList ∧
      text.toList = consumed ++ ':' :: colon ∧ Blanks o.behind (':' :: colon) ∧
      read text = .error ⟨.duplicateKey o.key, some o.path, .after consumed⟩ := by
  obtain ⟨o, ho⟩ := Reading.exists_firstRepeated h hd hu
  obtain ⟨consumed, colon, htext, hc, hfault⟩ := ho.inText.exists_position
  refine ⟨o, consumed, colon, ho, htext, hc, ?_⟩
  rw [← hfault, read_of_run_error (Reading.run_of_firstRepeated h hd ho)]

/-- The first repeated key may lie in the value of a key that is repeated later. -/
theorem Json.read_first_repeated_key_nested :
    let text := "\x7b\"a\":[\x7b\"b\":null,\"b\":null\x7d],\"a\":null\x7d"
    let j := Json.map [("a", .list [.map [("b", .null), ("b", .null)]]), ("a", .null)]
    (j.SpelledBy text.toList ∧ j.depth ≤ 127 ∧ ¬ j.UniqueKeys) ∧
      ∃ (o : KeyOccurrence) (consumed colon : List Char), o.FirstRepeated text.toList ∧
        text.toList = consumed ++ ':' :: colon ∧ Blanks o.behind (':' :: colon) ∧
        read text = .error ⟨.duplicateKey o.key, some o.path, .after consumed⟩ := by
  intro text j
  have hs : j.SpelledBy text.toList := by
    have hj : j.withIntegers = j := by cbv
    have hw : j.write = text := by cbv
    have h := Json.spelledBy_write j
    rwa [hj, hw] at h
  have hd : j.depth ≤ 127 := by decide
  have hu : ¬ j.UniqueKeys := fun h => absurd (Json.uniqueKeys_map_iff.mp h).1 (by decide)
  exact ⟨⟨hs, hd, hu⟩, Json.read_first_repeated_key hs hd hu⟩

/-- White space behind the key is passed over before the position is taken. -/
theorem Json.read_repeated_key_and_blank :
    let text := "\x7b\"a\":null,\"a\" :null\x7d"
    (∃ j : Json, j.SpelledBy text.toList ∧ j.depth ≤ 127 ∧ ¬ j.UniqueKeys) ∧
      ¬ ∃ (o : KeyOccurrence) (consumed : List Char), o.FirstRepeated text.toList ∧
        text.toList = consumed ++ o.behind ∧
        read text = .error ⟨.duplicateKey o.key, some o.path, .after consumed⟩ := by
  intro text
  let last := ['"', 'a', '"', ' ', ':', 'n', 'u', 'l', 'l', '}']
  have htext : text.toList =
      '{' :: '"' :: 'a' :: '"' :: ':' :: 'n' :: 'u' :: 'l' :: 'l' :: ',' :: last :=
    String.toList_ofList
  have key {rest : List Char} : StringText ('a' :: '"' :: rest) ['a'] rest :=
    .cons (.plain (by decide) (by decide) (by decide)) .close
  constructor
  · let j := Json.map [("a", .null), ("a", .null)]
    refine ⟨j, ?_, by decide, fun h => absurd (Json.uniqueKeys_map_iff.mp h).1 (by decide)⟩
    rw [htext]
    have null {rest : List Char} : Padded ValueText ('n' :: 'u' :: 'l' :: 'l' :: rest) .null rest :=
      .mk (.refl _) .null (.refl _)
    have hlast : EntryText ValueText last ("a", .null) ['}'] :=
      .mk (.refl _) key (.cons (.inl rfl) (.refl _)) null
    exact .mk (.refl _) (.map (.next (.mk (.refl _) key (.refl _) null) (.last hlast))) (.refl _)
  · rintro ⟨o, consumed, ho, hbehind, hread⟩
    have heval : read text = .error ⟨.duplicateKey "a", some [], ⟨1, 14⟩⟩ := by
      have hrun : Reading.run (.value []) text.toList =
          .error ⟨.duplicateKey "a", some [], .leavingMap [' ', ':', 'n', 'u', 'l', 'l', '}']⟩ := by
        rw [htext, Reading.run_openMap .value (by decide),
          Reading.run_new_key (.refl _) key (.refl _) List.not_mem_nil .first,
          Reading.run_token .null (by rintro _ ⟨⟩) rfl,
          Reading.run_token .comma (by rintro _ ⟨⟩) rfl]
        exact Reading.run_of_step_error (ofChars_of_tokenText (.str key) (by rintro _ ⟨⟩))
          (by rintro _ ⟨⟩) rfl
      rw [read_of_run_error hrun, htext]
      rfl
    have hpos : Position.after consumed = ⟨1, 14⟩ :=
      (TextFault.mk.inj (Except.error.inj (hread.symm.trans heval))).2.2
    obtain ⟨pre, hpre⟩ := ho.inText.quote_suffix
    have hquote : consumed ++ o.behind = (pre ++ ['"']) ++ o.behind := by
      rw [← hbehind, ← hpre, List.append_assoc]
      rfl
    have hconsumed : consumed = pre ++ ['"'] := List.append_cancel_right hquote
    -- No quote ends at the column that is reported.
    have quotes : ∀ n ≤ text.toList.length, (text.toList.drop n).head? = some '"' →
        Position.after (text.toList.take n ++ ['"']) ≠ ⟨1, 14⟩ := by
      rw [htext]
      decide
    rw [← hpre] at quotes
    refine quotes pre.length (by simp) (by simp) ?_
    rw [List.take_left, ← hconsumed, hpos]

end ShapeCodec
