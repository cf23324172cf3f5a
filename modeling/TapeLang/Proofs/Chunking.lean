import TapeLang.Assembly.Listing
import TapeLang.Program
import TapeLang.Proofs.Visible

/-!
How a text is cut into pieces does not matter.

`Scanner.pull` follows a scanner that asks its source for one piece after the other.  It asks no
more once it has met an error, an empty piece tells it that the text is over, and a failing read is
met only by asking for it.  `scan_eq_pull` says that this is what scanning a source comes to.

A scanner keeps all it knows in its state, so it may be interrupted between any two characters:
`pull_append` turns a sequence of pieces into a single one, whatever comes behind them.  Main
statement: `pieces_interchangeable`, a text that arrives in pieces up to an end of input has the
tokens, runs, listing and program of the text as a whole.
-/

namespace TapeLang

variable {ε : Type}

namespace Scanner

/-- What becomes of a scanner that asks for one piece after the other, where the read behind the
last piece may fail. -/
def pull (failure : Option ε) (s : Scanner) : List String → Scan ε
  | [] => ⟨s.tokens.toList, (s.error.map .invalid).or (failure.map .failed)⟩
  | piece :: rest =>
    match s.error with
    | some e => ⟨s.tokens.toList, some (.invalid e)⟩
    | none =>
      if piece = "" then ⟨s.tokens.toList, none⟩ else (s.feedPiece piece).pull failure rest

/-! ### Single pieces -/

theorem feedPiece_of_error {s : Scanner} {e : SourceError} (h : s.error = some e)
    (piece : String) : s.feedPiece piece = s :=
  foldl_feed_of_error h piece.toList

theorem feedPiece_empty (s : Scanner) : s.feedPiece "" = s := by
  simp [feedPiece]

/-- A scanner may be interrupted between any two characters. -/
theorem feedPiece_append (s : Scanner) (a b : String) :
    s.feedPiece (a ++ b) = (s.feedPiece a).feedPiece b := by
  simp only [feedPiece, String.toList_append, List.foldl_append]

/-! ### Pieces one after the other -/

/-- After an error nothing is asked for. -/
theorem pull_of_error {s : Scanner} {e : SourceError} (h : s.error = some e)
    (failure : Option ε) (pieces : List String) :
    s.pull failure pieces = ⟨s.tokens.toList, some (.invalid e)⟩ := by
  cases pieces with
  | nil => simp [pull, h]
  | cons piece rest => simp [pull, h]

theorem pull_cons {s : Scanner} (failure : Option ε) {piece : String} (hpiece : piece ≠ "")
    (rest : List String) :
    s.pull failure (piece :: rest) = (s.feedPiece piece).pull failure rest := by
  cases h : s.error with
  | some e => rw [feedPiece_of_error h, pull_of_error h, pull_of_error h]
  | none => simp [pull, h, hpiece]

/-- An empty piece is the end: neither what comes behind it nor a failing read is met. -/
theorem pull_empty (s : Scanner) (failure : Option ε) (rest : List String) :
    s.pull failure ("" :: rest) = s.pull none [] := by
  cases h : s.error with
  | some e => rw [pull_of_error h, pull_of_error h]
  | none => simp [pull, h]

/-- Pieces that follow each other are as good as all of them in one. -/
theorem pull_append (s : Scanner) (failure : Option ε) {pieces : List String}
    (hpieces : ∀ p ∈ pieces, p ≠ "") (rest : List String) :
    s.pull failure (pieces ++ rest) =
      (s.feedPiece (String.join pieces)).pull failure rest := by
  induction pieces generalizing s with
  | nil => simp [feedPiece_empty]
  | cons piece pieces ih =>
    have hmore := ih (s.feedPiece piece) fun p hp => hpieces p (List.mem_cons_of_mem piece hp)
    rw [List.cons_append, pull_cons failure (hpieces piece (by simp)), hmore, String.join_cons,
      feedPiece_append]

/-- Whatever comes before an empty piece, nothing behind it has any effect. -/
theorem pull_append_empty (s : Scanner) (failure failure' : Option ε)
    (before after after' : List String) :
    s.pull failure (before ++ "" :: after) = s.pull failure' (before ++ "" :: after') := by
  induction before generalizing s with
  | nil => rw [List.nil_append, List.nil_append, pull_empty, pull_empty]
  | cons piece before ih =>
    by_cases hpiece : piece = ""
    · subst hpiece
      rw [List.cons_append, List.cons_append, pull_empty, pull_empty]
    · rw [List.cons_append, List.cons_append, pull_cons failure hpiece, pull_cons failure' hpiece]
      exact ih (s.feedPiece piece)

/-- Feeding the pieces that are delivered, and looking for the failure afterwards, is asking for
one piece after the other. -/
theorem pull_eq_foldl (s : Scanner) (failure : Option ε) (chunks : List String) :
    s.pull failure chunks =
      ⟨((Source.mk chunks failure).pieces.foldl feedPiece s).tokens.toList,
        (((Source.mk chunks failure).pieces.foldl feedPiece s).error.map .invalid).or
          ((Source.mk chunks failure).outcome.map .failed)⟩ := by
  induction chunks generalizing s with
  | nil => simp [pull, Source.pieces, Source.outcome]
  | cons piece rest ih =>
    by_cases hpiece : piece = ""
    · subst hpiece
      rw [pull_empty]
      simp [pull, Source.pieces, Source.outcome]
    · rw [pull_cons failure hpiece, ih]
      simp [Source.pieces, Source.outcome, hpiece]

end Scanner

/-- Scanning a source asks it for one piece after the other. -/
theorem scan_eq_pull (source : Source ε) :
    scan source = Scanner.start.pull source.failure source.chunks :=
  (Scanner.pull_eq_foldl Scanner.start source.failure source.chunks).symm

/-- A whole text is fed at once. -/
theorem scan_ofString (text : String) :
    scan (.ofString text : Source ε) = (Scanner.start.feedPiece text).pull none [] := by
  rw [scan_eq_pull]
  show Scanner.start.pull none [text] = _
  by_cases htext : text = ""
  · subst htext
    rw [Scanner.pull_empty, Scanner.feedPiece_empty]
  · rw [Scanner.pull_cons none htext]

/-! ### Sources that say the same -/

/-- Nothing that is made of a source tells one of them from the other: neither its tokens and what
cut them short, nor its runs, nor its listing for any size, complete or not, nor its program. -/
structure Source.Interchangeable (a b : Source ε) : Prop where
  tokens : scan a = scan b
  runs : runsOf a = runsOf b
  listing : ∀ size, Assembly.Listing.ofSource size a = Assembly.Listing.ofSource size b
  program : compile a = compile b

/-- Everything is made of the tokens. -/
theorem Source.interchangeable_of_scan {a b : Source ε} (h : scan a = scan b) :
    a.Interchangeable b := by
  have hruns : runsOf a = runsOf b := by rw [runsOf, runsOf, h]
  refine ⟨h, hruns, ?_, ?_⟩
  · intro size
    rw [Assembly.Listing.ofSource, Assembly.Listing.ofSource, hruns]
  · rw [compile, compile, hruns]

/-- **Chunking**: a text that is cut into pieces, none of them empty, and followed by an end of
input can take the place of the whole text.  The end of input may be that there are no more pieces,
or an empty piece; and whatever would come behind an empty piece, a failing read included, has no
effect. -/
theorem pieces_interchangeable (text : String) (pieces : List String)
    (hpieces : ∀ p ∈ pieces, p ≠ "") (hcut : String.join pieces = text) :
    (⟨pieces, none⟩ : Source ε).Interchangeable (.ofString text) ∧
    (∀ (after : List String) (failure : Option ε),
      (⟨pieces ++ "" :: after, failure⟩ : Source ε).Interchangeable (.ofString text)) ∧
    ∀ (before after after' : List String) (failure failure' : Option ε),
      (⟨before ++ "" :: after, failure⟩ : Source ε).Interchangeable
        ⟨before ++ "" :: after', failure'⟩ := by
  subst hcut
  refine ⟨?_, ?_, ?_⟩
  · apply Source.interchangeable_of_scan
    have hjoin := Scanner.start.pull_append (none : Option ε) hpieces []
    rw [List.append_nil] at hjoin
    rw [scan_ofString, scan_eq_pull, hjoin]
  · intro after failure
    apply Source.interchangeable_of_scan
    rw [scan_ofString, scan_eq_pull, Scanner.pull_append _ _ hpieces, Scanner.pull_empty]
  · intro before after after' failure failure'
    apply Source.interchangeable_of_scan
    rw [scan_eq_pull, scan_eq_pull]
    exact Scanner.pull_append_empty _ _ _ _ _ _

/-- Cuts inside a comment and inside a run, and a failing read behind the end. -/
theorem pieces_interchangeable_comment :
    (⟨["[ #", "]\n+", "+]", "", "x"], some "lost"⟩ : Source String).Interchangeable
      (.ofString "[ #]\n++]") :=
  (pieces_interchangeable "[ #]\n++]" ["[ #", "]\n+", "+]"] (by decide) rfl).2.1 ["x"] (some "lost")

end TapeLang
