import MainframeRag.Agent.Budget

/-!
# Prompt sizes

Trimming never makes a prompt longer. A framed text grows by the tags escaped in it; cutting a text
and closing it with the truncation marker escapes no more of them (`tagCount_cut`), since the marker
ends every comparison.
-/

namespace MainframeRag.Agent

open PyText Ingest.Chunking

section

variable (U : CharTables) (G : TagTables) (R : PromptReaders)

/-! ## Escaped lengths -/

/-- The brackets that `escapeExcerpt` replaces. -/
def tagCount : Text → Nat
  | [] => 0
  | c :: t => (if isTagBracket c && tagFollows G t then 1 else 0) + tagCount t

theorem escapeExcerpt_length (t : Text) :
    (escapeExcerpt G t).length = t.length + 3 * tagCount G t := by
  induction t with
  | nil => rfl
  | cons c t ih =>
    rw [escapeExcerpt, tagCount]
    split
    · simp [ih]
      omega
    · simp [ih]
      omega

/-- What is in front of a text without brackets is kept as it is. -/
theorem escapeExcerpt_append {t : Text} (h : t.all (fun c => !isTagBracket c) = true) (u : Text) :
    escapeExcerpt G (t ++ u) = t ++ escapeExcerpt G u := by
  induction t with
  | nil => rfl
  | cons c t ih =>
    simp only [List.all_cons, Bool.and_eq_true, Bool.not_eq_true'] at h
    rw [List.cons_append, escapeExcerpt, if_neg (by simp [h.1]), ih h.2]
    rfl

theorem stops_dot : Stops G '.' :=
  stops_of_view G (tagView_ascii G (by decide) (by decide) (by decide))
    (by simp [tagSkips, G.skip_ascii '.' (by decide) (by decide), isSpace]) (by decide)

/-- The marker of a cut finds nothing that was not found in front of it. -/
theorem read_truncated (s : TagScan) (t : Text) :
    TagScan.read G s (t ++ truncatedSuffix) = .found ↔ TagScan.read G s t = .found := by
  have hline : ∀ s, TagScan.read G s ['\n'] = s := by
    intro s
    rw [TagScan.read_ascii G ['\n'] (by decide)]
    cases s with
    | reading want => rfl
    | found => rfl
    | lost => rfl
  have hsplit : truncatedSuffix = '\n' :: '.' :: ".. [truncated]".toList := rfl
  rw [TagScan.read_append, hsplit, TagScan.read_cons, hline, TagScan.read_stop G (stops_dot G)]

theorem tagCount_suffix : tagCount G truncatedSuffix = 0 := by
  have hnone : ∀ t : Text,
      t.all (fun c => c.toNat < 128 && tagFold c == c && c.toLower == c) = true →
      t.foldl TagScan.feedAscii (.reading 0) ≠ .found → tagFollows G t = false := by
    intro t ht hf
    rw [tagFollows, TagScan.read_ascii G t ht]
    exact decide_eq_false hf
  have hopen := hnone "truncated]".toList (by decide) (by decide)
  have hclose := hnone [] (by decide) (by decide)
  have hsplit : truncatedSuffix = "\n... ".toList ++ '[' :: ("truncated".toList ++ [']']) := rfl
  have hplain : ∀ t u : Text, t.all (fun c => !isTagBracket c) = true →
      tagCount G (t ++ u) = tagCount G u := by
    intro t u ht
    induction t with
    | nil => rfl
    | cons c t ih =>
      simp only [List.all_cons, Bool.and_eq_true, Bool.not_eq_true'] at ht
      rw [List.cons_append, tagCount, ih ht.2, if_neg (by simp [ht.1]), Nat.zero_add]
  rw [hsplit, hplain _ _ (by decide), tagCount, hplain _ _ (by decide), tagCount, tagCount]
  have hopen' : tagFollows G ("truncated".toList ++ [']']) = false := hopen
  rw [hopen', hclose]
  simp

/-- A cut with its marker escapes no more than the whole text. -/
theorem tagCount_cut (t u : Text) : tagCount G (t ++ truncatedSuffix) ≤ tagCount G (t ++ u) := by
  induction t with
  | nil => simp [tagCount_suffix]
  | cons c t ih =>
    rw [List.cons_append, List.cons_append, tagCount, tagCount]
    refine Nat.add_le_add ?_ ih
    split
    · next h =>
      obtain ⟨hb, hf⟩ := (Bool.and_eq_true _ _).mp h
      have hread := (read_truncated G _ t).mp (of_decide_eq_true hf)
      have hfull : tagFollows G (t ++ u) = true := by
        rw [tagFollows, TagScan.read_append, hread, TagScan.read_found]
        rfl
      rw [if_pos (by rw [hb, hfull]; rfl)]
    · exact Nat.zero_le _

/-! ## Block sizes -/

/-- The characters of blocks with the blank line behind each. -/
def blocksSize (bs : List PromptBlock) : Nat := (bs.map (fun b => b.2.length + 2)).sum

theorem blocksSize_append (bs cs : List PromptBlock) :
    blocksSize (bs ++ cs) = blocksSize bs + blocksSize cs := by
  simp [blocksSize]

theorem blocksSize_cons (b : PromptBlock) (bs : List PromptBlock) :
    blocksSize (b :: bs) = b.2.length + 2 + blocksSize bs := by
  simp [blocksSize]

theorem intercalate_length {bs : List PromptBlock} (h : bs ≠ []) :
    (List.intercalate "\n\n".toList (bs.map Prod.snd)).length + 2 = blocksSize bs := by
  induction bs with
  | nil => exact absurd rfl h
  | cons b bs ih =>
    cases bs with
    | nil => simp [blocksSize]
    | cons c cs =>
      have hc := ih (by simp)
      rw [blocksSize_cons, ← hc]
      simp [List.intercalate]
      omega

/-- The framed block of an excerpt behind the first. -/
def shippedSize (p : PackedExcerpt) : Nat := (frameBlock G (excerptBlock false p)).2.length + 2

def packedSize (packed : List PackedExcerpt) : Nat := (packed.map (shippedSize G)).sum

theorem excerptBlocks_size (packed : List PackedExcerpt) :
    blocksSize ((excerptBlocks packed).map (frameBlock G)) =
      excerptsHeader.length + 1 + max 2 (packedSize G packed) := by
  have hname : ∀ first p, (excerptBlock first p).1 = excerptName := fun _ _ => rfl
  have hrest : ∀ ps : List PackedExcerpt,
      blocksSize ((ps.map (excerptBlock false)).map (frameBlock G)) = packedSize G ps := by
    intro ps
    rw [blocksSize, packedSize, List.map_map, List.map_map]
    rfl
  cases packed with
  | nil =>
    have hn : excerptsName ≠ excerptName := by decide
    rw [excerptBlocks, List.map_singleton, frameBlock_other G hn]
    simp [blocksSize, packedSize]
  | cons p ps =>
    have hfirst : (frameBlock G (excerptBlock true p)).2.length + 2 =
        excerptsHeader.length + 1 + shippedSize G p := by
      have hplain : (excerptsHeader ++ ['\n']).all (fun c => !isTagBracket c) = true := by decide
      have hbody : (excerptBlock true p).2 = (excerptsHeader ++ ['\n']) ++ (excerptBlock false p).2 := by
        simp [excerptBlock]
      rw [shippedSize, frameBlock, frameBlock, if_pos (hname true p), if_pos (hname false p), hbody,
        frameExcerpt, escapeExcerpt_append G hplain, frameExcerpt]
      simp only [List.length_append, List.length_cons, List.length_nil]
      omega
    have hcons : packedSize G (p :: ps) = shippedSize G p + packedSize G ps := by
      simp [packedSize]
    have hpos : 2 ≤ shippedSize G p := Nat.le_add_left _ _
    rw [excerptBlocks, List.map_cons, blocksSize_cons, hfirst, hrest, hcons]
    omega

theorem shippedSize_pos (p : PackedExcerpt) : 2 < shippedSize G p := by
  have hopen : 0 < excerptOpen.length := by decide
  have hname : (excerptBlock false p).1 = excerptName := rfl
  rw [shippedSize, frameBlock, if_pos hname, frameExcerpt]
  simp only [List.length_append]
  omega

/-! ## Prompt sizes -/

/-- The characters of the contents and one for each message. -/
def messagesSize (messages : List ChatMessage) : Nat :=
  (messages.map (fun m => m.content.length + 1)).sum

theorem messagesSize_append (ms ns : List ChatMessage) :
    messagesSize (ms ++ ns) = messagesSize ms + messagesSize ns := by
  simp [messagesSize]

def promptSize (q : PromptRequest) (s : Trimmable) : Nat := messagesSize (candidate G R q s)

/-- The size of a prompt is its turns, its excerpts and a constant of the request. -/
theorem promptSize_eq (q : PromptRequest) : ∃ fixed, ∀ s : Trimmable,
    promptSize G R q s = messagesSize s.older.flatten + max 2 (packedSize G s.packed) + fixed := by
  have hcontent : ∀ packed, (userContent G R q packed).length + 2 =
      blocksSize (frontBlocks (contextEntries q) (questionText R q) q.order) +
        (excerptsHeader.length + 1 + max 2 (packedSize G packed)) +
        blocksSize (backBlocks (questionText R q) tailPart q.order) := by
    intro packed
    have hne : orderedBlocks G R q packed ≠ [] := by
      rw [orderedBlocks_eq]
      cases q.order <;> simp [frontBlocks]
    rw [userContent, intercalate_length hne, orderedBlocks_eq, blocksSize_append, blocksSize_append,
      excerptBlocks_size]
  have hhead : 2 ≤ excerptsHeader.length := by decide
  refine ⟨messagesSize [⟨.system, systemContent (complexityOf R q)⟩] + messagesSize (antecedent q) +
    (blocksSize (frontBlocks (contextEntries q) (questionText R q) q.order) +
      excerptsHeader.length + blocksSize (backBlocks (questionText R q) tailPart q.order)),
    fun s => ?_⟩
  have h := hcontent s.packed
  have huser : messagesSize [⟨.user, userContent G R q s.packed⟩] =
      (userContent G R q s.packed).length + 1 := by simp [messagesSize]
  rw [promptSize, candidate, messagesSize_append, messagesSize_append, messagesSize_append, huser]
  omega

/-! ## Shrinking -/

/-- The same excerpt, cut earlier and shipped with less text. -/
structure Shortened (p p' : PackedExcerpt) : Prop where
  index : p'.index = p.index
  hit : p'.hit = p.hit
  start : p'.start = p.start
  cut : p.start ≤ p'.stop ∧ p'.stop ≤ p.stop ∧ p.stop ≤ p.source.length
  body : p.body = composeBody p.source p.start p.stop
  body' : p'.body = composeBody p.source p.start p'.stop
  shorter : p'.body.length < p.body.length

/-- A turn is removed, or an excerpt is removed or shortened. -/
inductive Shrinks : Trimmable → Trimmable → Prop
  | turn (pre turn post packed) : Shrinks ⟨pre ++ turn :: post, packed⟩ ⟨pre ++ post, packed⟩
  | drop (older pre p post) : Shrinks ⟨older, pre ++ p :: post⟩ ⟨older, pre ++ post⟩
  | shorten (older pre p p' post) (h : Shortened p p') :
    Shrinks ⟨older, pre ++ p :: post⟩ ⟨older, pre ++ p' :: post⟩

theorem textRange_split {t : Text} {a b c : Nat} (h1 : a ≤ b) (h2 : b ≤ c) :
    textRange t a c = textRange t a b ++ textRange t b c := by
  obtain ⟨n, rfl⟩ := Nat.exists_eq_add_of_le h1
  obtain ⟨m, rfl⟩ := Nat.exists_eq_add_of_le h2
  simp only [textRange, List.drop_take]
  have e1 : a + n + m - a = n + m := by omega
  have e2 : a + n - a = n := by omega
  have e3 : a + n + m - (a + n) = m := by omega
  rw [e1, e2, e3, List.take_add, List.drop_drop]

/-- A shortened excerpt is shipped in fewer characters. -/
theorem Shortened.size {p p' : PackedExcerpt} (h : Shortened p p') :
    shippedSize G p' < shippedSize G p := by
  have hname : ∀ p, (excerptBlock false p).1 = excerptName := fun _ => rfl
  have hlt : p'.stop < p.source.length := by
    rcases Nat.lt_or_ge p'.stop p.source.length with hlt | hge
    · exact hlt
    · -- both are cut at the end of the text
      have he : p'.stop = p.stop := by have := h.cut; omega
      have := h.shorter
      rw [h.body, h.body', he] at this
      omega
  have hhead : excerptHeader p'.index p'.hit = excerptHeader p.index p.hit := by
    rw [h.index, h.hit]
  have hcut : tagCount G (excerptBlock false p').2 ≤ tagCount G (excerptBlock false p).2 := by
    simp only [excerptBlock, hhead, h.body, h.body', composeBody, if_pos hlt]
    rw [textRange_split h.cut.1 h.cut.2.1]
    simp only [Bool.false_eq_true, ↓reduceIte, List.nil_append, ← List.append_assoc]
    rw [List.append_assoc _ (textRange p.source p'.stop p.stop)]
    exact tagCount_cut G _ _
  have hlen : (excerptBlock false p').2.length < (excerptBlock false p).2.length := by
    have := h.shorter
    simp only [excerptBlock, hhead, List.length_append]
    omega
  rw [shippedSize, shippedSize, frameBlock, frameBlock, if_pos (hname p), if_pos (hname p')]
  simp only [frameExcerpt, List.length_append, escapeExcerpt_length]
  omega

theorem packedSize_append (pre : List PackedExcerpt) (post : List PackedExcerpt) :
    packedSize G (pre ++ post) = packedSize G pre + packedSize G post := by
  simp [packedSize]

theorem packedSize_cons (p : PackedExcerpt) (post : List PackedExcerpt) :
    packedSize G (p :: post) = shippedSize G p + packedSize G post := by
  simp [packedSize]

theorem Shrinks.size {q : PromptRequest} {s s' : Trimmable} (h : Shrinks s s') :
    promptSize G R q s' ≤ promptSize G R q s := by
  obtain ⟨fixed, hsize⟩ := promptSize_eq G R q
  rw [hsize, hsize]
  cases h with
  | turn pre turn post packed =>
    simp only [List.flatten_append, List.flatten_cons, messagesSize_append]
    omega
  | drop older pre p post =>
    simp only [packedSize_append, packedSize_cons]
    omega
  | shorten older pre p p' post h =>
    have := h.size G
    simp only [packedSize_append, packedSize_cons]
    omega

end

end MainframeRag.Agent
