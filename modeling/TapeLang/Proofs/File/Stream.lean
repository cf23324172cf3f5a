import TapeLang.File.Stream
import TapeLang.Proofs.Text.Decoding

/-!
What a file is read as.

Whatever the sizes of blocks and chunks, a file is read as its bytes are decoded as a whole: if they
can be decoded, the chunks are not empty and make up the text (`stream_of_decodeAll`); if not, the
last read fails (`stream_of_decodeAll_error`).

The proof says what a reader has still to hand out (`Reader.text?`), which reading a block leaves
as it is.  Every block but the last two takes bytes (`Reader.work`), and no characters appear that
no bytes stand for (`Reader.stock`), so the fuel of a stream suffices.
-/

namespace TapeLang.File

open Text (Decoder DecodeError decodeFrom unify)

namespace Reader

/-- The carriage return that is held back, if one is. -/
def held (r : Reader) : List Char := if r.heldReturn then ['\r'] else []

/-- What is still to be handed out, unless the bytes cannot be decoded. -/
def text? (r : Reader) : Option (List Char) :=
  match decodeFrom r.pending r.rest with
  | some (cs, []) => some (r.buffer ++ unify false (r.held ++ cs))
  | _ => none

/-- How many blocks are left to read, at most. -/
def work (r : Reader) : Nat := if r.rest = [] then r.held.length else r.rest.length + 1

/-- How many characters are left to hand out, at most. -/
def stock (r : Reader) : Nat := r.buffer.length + r.rest.length + r.held.length

/-- Characters without a carriage return at their end, which is held back. -/
def holdBack (cs : List Char) : List Char × Bool :=
  if cs.getLast? = some '\r' then (cs.dropLast, true) else (cs, false)

theorem one_le_request (r : Reader) (wanted : Nat) : 1 ≤ r.request wanted := by
  have hblock : 1 ≤ blockLength := by decide
  unfold request
  split <;> omega

/-- A reader that has read some characters from a block. -/
def received (r : Reader) (n : Nat) (cs : List Char) (left : List UInt8) : Reader :=
  let all := if cs = [] then [] else r.held ++ cs
  { rest := r.rest.drop n
    pending := left
    heldReturn := if cs = [] then r.heldReturn else (holdBack all).2
    buffer := r.buffer ++ unify false (holdBack all).1
    lastBytes := (r.rest.take n).length
    lastChars := (unify false (holdBack all).1).length }

/-- A reader at the end of the file. -/
def ended (r : Reader) : Reader :=
  { rest := []
    pending := []
    heldReturn := false
    buffer := r.buffer ++ unify false r.held
    lastBytes := 0
    lastChars := (unify false r.held).length }

section

variable {r : Reader} {wanted : Nat} {cs : List Char} {left : List UInt8}

theorem readBlock_of_rest_nil (hrest : r.rest = []) (hpending : r.pending = []) :
    r.readBlock wanted = .ok (r.heldReturn, r.ended) := by
  have hd : (Decoder.resume []).finish = ⟨#[], 0, [], none⟩ := rfl
  have hnone : Text.unifyLineEnds #[] = #[] := rfl
  have hreturn : Text.unifyLineEnds #['\r'] = #['\n'] := rfl
  unfold readBlock ended held
  simp only [hrest, hpending, List.take_nil, List.isEmpty_nil, List.foldl_nil, if_true, hd]
  cases r.heldReturn
  · simp [hnone, unify]
  · simp [hreturn, unify]

theorem readBlock_of_decodeFrom (hrest : r.rest ≠ [])
    (h : decodeFrom r.pending (r.rest.take (r.request wanted)) = some (cs, left)) :
    r.readBlock wanted = .ok (true, r.received (r.request wanted) cs left) := by
  have hone := r.one_le_request wanted
  obtain ⟨b, more, hcons⟩ := List.exists_cons_of_ne_nil hrest
  have hblock : (r.rest.take (r.request wanted)).isEmpty = false := by
    rw [hcons]
    cases hn : r.request wanted with
    | zero => omega
    | succ n => rfl
  have hd : (Decoder.resume r.pending).error = none := rfl
  obtain ⟨herror, hchars, hpending⟩ := Text.foldl_feed hd h
  have hchars' : ((r.rest.take (r.request wanted)).foldl Decoder.feed
      (Decoder.resume r.pending)).chars = cs.toArray := by
    rw [← Array.toList_inj, hchars]
    rfl
  unfold readBlock received holdBack held
  simp only [hblock, Bool.false_eq_true, if_false, herror, hpending, hchars']
  by_cases hcs : cs = []
  · subst hcs
    simp [← Array.length_toList, Text.toList_unifyLineEnds, unify]
  · have hne : cs.toArray.isEmpty = false := by simpa using hcs
    cases hheld : r.heldReturn
    · by_cases hlast : cs.getLast? = some '\r'
      · simp [hcs, hlast, ← Array.length_toList, Text.toList_unifyLineEnds]
      · simp [hcs, hlast, ← Array.length_toList, Text.toList_unifyLineEnds]
    · -- A return that was held back stands in front, so the last character is that of the block.
      have hlast' : ('\r' :: cs).getLast? = cs.getLast? := by
        rw [List.getLast?_cons, List.getLast?_eq_some_getLast hcs]
        rfl
      by_cases hlast : cs.getLast? = some '\r'
      · simp [hcs, hlast, hlast', ← Array.length_toList, Text.toList_unifyLineEnds]
      · simp [hcs, hlast, hlast', ← Array.length_toList, Text.toList_unifyLineEnds]

theorem readBlock_of_error {e : DecodeError}
    (h : (let block := r.rest.take (r.request wanted)
      let fed := block.foldl Decoder.feed (Decoder.resume r.pending)
      if block.isEmpty then fed.finish else fed).error = some e) :
    r.readBlock wanted = .error e := by
  unfold readBlock
  dsimp only at h ⊢
  rw [h]

/-- What a block adds and what is held back make up what was held back before and the block. -/
theorem unify_holdBack (all cs : List Char) :
    unify false (all ++ cs) =
      unify false (holdBack all).1 ++
        unify false ((if (holdBack all).2 then ['\r'] else []) ++ cs) := by
  unfold holdBack
  by_cases hlast : all.getLast? = some '\r'
  · obtain ⟨front, rfl⟩ := List.getLast?_eq_some_iff.mp hlast
    simp [Text.unify_append_return]
  · rw [if_neg hlast]
    by_cases hnil : all = []
    · simp [hnil, unify]
    · obtain ⟨front, c, rfl⟩ := (List.eq_nil_or_concat' all).resolve_left hnil
      have hc : c ≠ '\r' := by simpa using hlast
      simpa using Text.unify_append hc false cs

theorem length_holdBack (all : List Char) :
    (holdBack all).1.length + (if (holdBack all).2 then ['\r'] else []).length = all.length := by
  unfold holdBack
  by_cases hlast : all.getLast? = some '\r'
  · obtain ⟨front, rfl⟩ := List.getLast?_eq_some_iff.mp hlast
    simp
  · simp [hlast]

theorem held_received (n : Nat) : (r.received n cs left).held =
    if cs = [] then r.held else if (holdBack (r.held ++ cs)).2 then ['\r'] else [] := by
  unfold received held
  by_cases hcs : cs = []
  · simp [hcs]
  · simp [hcs]

theorem text?_received {n : Nat} (h : decodeFrom r.pending (r.rest.take n) = some (cs, left)) :
    (r.received n cs left).text? = r.text? := by
  have hwhole : decodeFrom r.pending r.rest =
      (decodeFrom left (r.rest.drop n)).map fun y => (cs ++ y.1, y.2) := by
    conv_lhs => rw [← List.take_append_drop n r.rest, Text.decodeFrom_append, h, Option.bind_some]
  -- Both sides fail alike unless the rest is complete, and then only the line ends are left.
  unfold text?
  rw [hwhole, held_received]
  show (match decodeFrom left (r.rest.drop n) with
    | some (cs', []) => _
    | _ => none) = _
  cases decodeFrom left (r.rest.drop n) with
  | none => rfl
  | some y =>
    obtain ⟨cs', rest⟩ := y
    cases rest with
    | cons b more => rfl
    | nil =>
      show some _ = some _
      congr 1
      by_cases hcs : cs = []
      · simp [received, hcs, holdBack, unify]
      · simp only [received, hcs, if_false, List.append_assoc]
        rw [← List.append_assoc r.held, unify_holdBack (r.held ++ cs) cs']

theorem stock_received {n : Nat} (h : decodeFrom r.pending (r.rest.take n) = some (cs, left)) :
    (r.received n cs left).stock ≤ r.stock := by
  have hlength := Text.length_le_of_decodeFrom h
  have hsplit : (r.rest.take n).length + (r.rest.drop n).length = r.rest.length := by
    rw [← List.length_append, List.take_append_drop]
  unfold stock
  rw [held_received]
  by_cases hcs : cs = []
  · simp only [received, hcs, if_true, holdBack, List.getLast?_nil, reduceCtorEq, if_false, unify,
      List.append_nil]
    omega
  · have hhold := length_holdBack (r.held ++ cs)
    have hunify := Text.length_unify_le false (holdBack (r.held ++ cs)).1
    simp only [received, hcs, if_false, List.length_append] at hhold ⊢
    omega

end

/-- Reading a block fails if the bytes cannot be decoded.  Otherwise it leaves what is to be handed
out as it is, and either there is less to read or everything is in the buffer. -/
theorem readBlock_cases (r : Reader) (wanted : Nat) :
    (∃ e, r.readBlock wanted = .error e ∧ r.text? = none) ∨
      ∃ more r', r.readBlock wanted = .ok (more, r') ∧ r'.text? = r.text? ∧ r'.stock ≤ r.stock ∧
        if more then r'.work < r.work else r'.work = 0 ∧ r'.text? = some r'.buffer := by
  by_cases hrest : r.rest = []
  · -- The bytes are used up: whether a character is left unfinished decides.
    by_cases hpending : r.pending = []
    · right
      have htext : r.text? = some (r.buffer ++ unify false r.held) := by
        simp [text?, hrest, hpending, decodeFrom]
      have hended : r.ended.text? = some r.ended.buffer := by
        simp [text?, ended, held, decodeFrom, unify]
      refine ⟨r.heldReturn, r.ended, readBlock_of_rest_nil hrest hpending, ?_, ?_, ?_⟩
      · rw [htext, hended]
        rfl
      · have hunify := Text.length_unify_le false r.held
        have hheld : r.ended.held = [] := rfl
        unfold stock
        rw [hheld]
        simp only [ended, List.length_append, hrest, List.length_nil]
        omega
      · cases hheld : r.heldReturn with
        | false => exact ⟨rfl, hended⟩
        | true => simp [work, hrest, held, hheld, ended]
    · left
      have hblock : (r.rest.take (r.request wanted)) = [] := by rw [hrest, List.take_nil]
      have herror : ((Decoder.resume r.pending).finish).error ≠ none :=
        Text.error_finish_of_pending hpending
      obtain ⟨e, he⟩ := Option.ne_none_iff_exists'.mp herror
      refine ⟨e, readBlock_of_error (by simpa [hblock] using he), ?_⟩
      obtain ⟨b, more, hcons⟩ := List.exists_cons_of_ne_nil hpending
      simp [text?, hrest, decodeFrom, hcons]
  · cases h : decodeFrom r.pending (r.rest.take (r.request wanted)) with
    | none =>
      left
      have hd : (Decoder.resume r.pending).error = none := rfl
      obtain ⟨e, he⟩ := Option.ne_none_iff_exists'.mp (Text.foldl_feed_of_none hd h)
      have hone := r.one_le_request wanted
      have hblock : (r.rest.take (r.request wanted)).isEmpty = false := by
        simp only [List.isEmpty_eq_false_iff, ne_eq, List.take_eq_nil_iff, hrest, or_false]
        omega
      refine ⟨e, readBlock_of_error (by simpa [hblock] using he), ?_⟩
      have hwhole : decodeFrom r.pending r.rest = none := by
        rw [← List.take_append_drop (r.request wanted) r.rest, Text.decodeFrom_append, h]
        rfl
      rw [text?, hwhole]
    | some x =>
      right
      refine ⟨true, _, readBlock_of_decodeFrom hrest h, text?_received h, stock_received h, ?_⟩
      have hone := r.one_le_request wanted
      have hlength : 1 ≤ r.rest.length := List.length_pos_iff.mpr hrest
      have hheld : (r.received (r.request wanted) x.1 x.2).held.length ≤ 1 := by
        unfold held
        split <;> simp
      have hdrop : (r.received (r.request wanted) x.1 x.2).rest.length =
          r.rest.length - r.request wanted := List.length_drop
      rw [if_pos rfl, work, work, if_neg hrest]
      split <;> omega

theorem fill_cases {fuel : Nat} {r : Reader} (hfuel : r.work < fuel) :
    (∃ e, r.fill fuel = .error e ∧ r.text? = none) ∨
      ∃ r', r.fill fuel = .ok r' ∧ r'.text? = r.text? ∧ r'.stock ≤ r.stock ∧ r'.work ≤ r.work ∧
        (chunkLength ≤ r'.buffer.length ∨ r'.text? = some r'.buffer) := by
  induction fuel generalizing r with
  | zero => omega
  | succ fuel ih =>
    rw [fill]
    by_cases hfull : chunkLength ≤ r.buffer.length
    · exact .inr ⟨r, by rw [if_pos hfull], rfl, Nat.le_refl _, Nat.le_refl _, .inl hfull⟩
    · rw [if_neg hfull]
      obtain ⟨e, he, htext⟩ | ⟨more, r', hr', htext, hstock, hmore⟩ :=
        r.readBlock_cases (chunkLength - r.buffer.length)
      · exact .inl ⟨e, by rw [he], htext⟩
      · rw [hr', ← htext]
        cases more with
        | false =>
          obtain ⟨hwork, hend⟩ := hmore
          exact .inr ⟨r', rfl, rfl, hstock, by omega, .inr hend⟩
        | true =>
          have hless : r'.work < r.work := hmore
          obtain hfailed | ⟨r'', hr'', htext', hstock', hwork', hend⟩ := ih (r := r') (by omega)
          · exact .inl hfailed
          · exact .inr ⟨r'', hr'', htext', by omega, by omega, hend⟩

/-- Chunks are not empty, and they make up the text if there is one. -/
theorem chunks_cases {fillFuel fuel : Nat} {r : Reader} (hfill : r.work < fillFuel)
    (hfuel : r.stock < fuel) (out : Array String) :
    ∃ pieces failure, r.chunks fillFuel fuel out = ⟨out.toList ++ pieces, failure⟩ ∧
      (∀ piece ∈ pieces, piece ≠ "") ∧
      match r.text? with
      | some cs => failure = none ∧ pieces.flatMap String.toList = cs
      | none => failure ≠ none := by
  induction fuel generalizing r out with
  | zero => omega
  | succ fuel ih =>
    rw [chunks]
    obtain ⟨e, he, htext⟩ | ⟨r', hr', htext, hstock, hwork, hend⟩ := fill_cases hfill
    · exact ⟨[], some e, by rw [he, List.append_nil], by simp, by simp [htext]⟩
    · rw [hr', ← htext]
      dsimp only
      by_cases hempty : r'.buffer = []
      · -- Only at the end of the file does filling leave the buffer without a chunk.
        have hlast : r'.text? = some r'.buffer := by
          refine hend.resolve_left fun hfull => ?_
          rw [hempty] at hfull
          exact absurd hfull (by decide)
        refine ⟨[], none, by simp [hempty], by simp, ?_⟩
        rw [hlast, hempty]
        simp
      · have htaken : 1 ≤ r'.buffer.length := List.length_pos_iff.mpr hempty
        have hchunk : 1 ≤ chunkLength := by decide
        obtain ⟨pieces, failure, hchunks, hpieces, hpost⟩ :=
          ih (r := { r' with buffer := r'.buffer.drop chunkLength })
            (show r'.work < fillFuel by omega)
            (by
              have hdrop : (r'.buffer.drop chunkLength).length = r'.buffer.length - chunkLength :=
                List.length_drop
              unfold stock at hstock hfuel ⊢
              show (r'.buffer.drop chunkLength).length + r'.rest.length + r'.held.length < fuel
              omega)
            (out.push (String.ofList (r'.buffer.take chunkLength)))
        refine ⟨String.ofList (r'.buffer.take chunkLength) :: pieces, failure, ?_, ?_, ?_⟩
        · simp [hempty, hchunks]
        · intro piece hpiece
          rcases List.mem_cons.mp hpiece with rfl | hpiece
          · rw [ne_eq, String.ofList_eq_empty_iff, List.take_eq_nil_iff]
            rintro (hzero | hnil)
            · omega
            · exact hempty hnil
          · exact hpieces piece hpiece
        · -- The chunk is taken off the buffer, and what the bytes stand for is the same as before.
          have hsame : ({ r' with buffer := r'.buffer.drop chunkLength } : Reader).held =
              r'.held := rfl
          unfold text? at hpost ⊢
          rw [hsame] at hpost
          cases hdecode : decodeFrom r'.pending r'.rest with
          | none => simpa [hdecode] using hpost
          | some x =>
            obtain ⟨cs, left⟩ := x
            cases left with
            | cons b more => simpa [hdecode] using hpost
            | nil =>
              simp only [hdecode] at hpost ⊢
              refine ⟨hpost.1, ?_⟩
              rw [List.flatMap_cons, hpost.2, String.toList_ofList, ← List.append_assoc,
                List.take_append_drop]

end Reader

theorem stream_cases (content : ByteArray) :
    (∀ chunk ∈ (stream content).chunks, chunk ≠ "") ∧
      match decodeFrom [] content.data.toList with
      | some (cs, []) => (stream content).failure = none ∧
          (stream content).chunks.flatMap String.toList = unify false cs
      | _ => (stream content).failure ≠ none := by
  have hsize : (Reader.opened content).rest.length = content.size := Array.length_toList
  have hheld : (Reader.opened content).held = [] := rfl
  have hwork : (Reader.opened content).work < content.size + 3 := by
    rw [Reader.work, hheld, hsize]
    split
    · exact Nat.succ_pos _
    · omega
  have hstock : (Reader.opened content).stock < content.size + 3 := by
    rw [Reader.stock, hheld, hsize]
    show 0 + content.size + 0 < content.size + 3
    omega
  obtain ⟨pieces, failure, hchunks, hpieces, hpost⟩ := Reader.chunks_cases hwork hstock #[]
  have hstream : stream content = ⟨pieces, failure⟩ := hchunks
  rw [hstream]
  refine ⟨hpieces, ?_⟩
  have htext : (Reader.opened content).text? = match decodeFrom [] content.data.toList with
      | some (cs, []) => some (unify false cs)
      | _ => none := rfl
  rw [htext] at hpost
  cases hdecode : decodeFrom [] content.data.toList with
  | none => simpa [hdecode] using hpost
  | some x =>
    obtain ⟨cs, left⟩ := x
    cases left with
    | cons b more => simpa [hdecode] using hpost
    | nil => simpa [hdecode] using hpost

/-- A file that can be decoded is read as its text. -/
theorem stream_of_decodeAll {content : ByteArray} {text : String}
    (h : Text.decodeAll content = .ok text) :
    (stream content).failure = none ∧ (∀ chunk ∈ (stream content).chunks, chunk ≠ "") ∧
      (stream content).chunks.flatMap String.toList = text.toList := by
  obtain ⟨hchunks, hpost⟩ := stream_cases content
  by_cases hdecode : ∃ cs, decodeFrom [] content.data.toList = some (cs, [])
  · obtain ⟨cs, hcs⟩ := hdecode
    rw [Text.decodeAll_of_decodeFrom hcs, Except.ok.injEq] at h
    rw [hcs] at hpost
    exact ⟨hpost.1, hchunks, by rw [hpost.2, ← h, String.toList_ofList]⟩
  · obtain ⟨e, he⟩ := Text.decodeAll_of_decodeFrom_ne (not_exists.mp hdecode)
    rw [he] at h
    cases h

/-- Reading a file that cannot be decoded fails in the end. -/
theorem stream_of_decodeAll_error {content : ByteArray} {e : DecodeError}
    (h : Text.decodeAll content = .error e) :
    (stream content).failure ≠ none ∧ ∀ chunk ∈ (stream content).chunks, chunk ≠ "" := by
  obtain ⟨hchunks, hpost⟩ := stream_cases content
  refine ⟨?_, hchunks⟩
  split at hpost
  · rename_i cs hcs
    rw [Text.decodeAll_of_decodeFrom hcs] at h
    cases h
  · exact hpost

end TapeLang.File
