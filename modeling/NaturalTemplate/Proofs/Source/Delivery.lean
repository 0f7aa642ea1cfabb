import NaturalTemplate.Proofs.Markup.RoundTrip
import NaturalTemplate.Proofs.Source.Utf8

/-!
# What reads deliver

A device delivers the bytes of its blocks up to the first read that brings none. Where the blocks
are cut cannot be seen in the characters that these bytes are decoded to, and so not in a document:
reads that deliver the bytes of a text are parsed as that text, to the last detail of an error, and
reads that fail or that deliver anything else give no document.
-/
namespace NaturalTemplate

namespace Source

/-- The bytes that a sequence of reads brings before the end of the input, when none of the reads up
to there fails. A read that was interrupted does not count. -/
def delivered : List Read → Option (List UInt8)
  | [] => some []
  | .interrupted :: reads => delivered reads
  | .failed _ _ :: _ => none
  | .bytes [] :: _ => some []
  | .bytes (b :: block) :: reads => (delivered reads).map (b :: block ++ ·)

theorem delivered_bytes {block : List UInt8} (h : block ≠ []) (reads : List Read) :
    delivered (.bytes block :: reads) = (delivered reads).map (block ++ ·) := by
  obtain ⟨b, block, rfl⟩ := List.exists_cons_of_ne_nil h
  rfl

/-! ## Blocks -/

theorem delivered_blocks_append {block : List UInt8} (h : block ≠ []) (reads : List Read) :
    delivered ((blocks block).map .bytes ++ reads) = (delivered reads).map (block ++ ·) := by
  fun_induction blocks block with
  | case1 bytes => exact delivered_bytes h reads
  | case2 bytes hlength ih =>
    have htake : bytes.take blockSize ≠ [] := by
      simp [blockSize, h]
    have hdrop : bytes.drop blockSize ≠ [] := by
      simpa [List.drop_eq_nil_iff] using hlength
    rw [List.map_cons, List.cons_append, delivered_bytes htake, ih hdrop, Option.map_map]
    congr 1
    funext rest
    rw [Function.comp_apply, ← List.append_assoc, List.take_append_drop]

/-- Cutting reads into blocks changes nothing about what they deliver. -/
theorem delivered_flatMap_blocks (reads : List Read) :
    delivered (reads.flatMap fun
      | .bytes block => (blocks block).map .bytes
      | read => [read]) = delivered reads := by
  induction reads with
  | nil => rfl
  | cons read reads ih =>
    rw [List.flatMap_cons]
    cases read with
    | interrupted => exact ih
    | failed kind message => rfl
    | bytes block =>
      cases block with
      | nil =>
        change delivered ((blocks []).map .bytes ++ _) = some []
        rw [blocks, if_pos (by simp)]
        rfl
      | cons b block =>
        rw [delivered_blocks_append (List.cons_ne_nil b block), ih]
        rfl

/-! ## Decoding as the blocks come -/

/-- Bytes that a reader may still hold: none, or a part of a character. -/
def IsPending (waiting : List UInt8) : Prop :=
  waiting = [] ∨ Utf8.decode waiting = ([], .incomplete waiting)

theorem eq_nil_of_isPending {waiting : List UInt8} {cs : List Char} (hpending : IsPending waiting)
    (h : waiting = Utf8.encode cs) : waiting = [] ∧ cs = [] := by
  obtain rfl | hdecode := hpending
  · have hdecode := congrArg Utf8.decode h
    rw [Utf8.decode_encode, Utf8.decode] at hdecode
    exact ⟨rfl, (Prod.mk.inj hdecode).1.symm⟩
  · rw [h, Utf8.decode_encode] at hdecode
    simp at hdecode

/-- Reads that deliver the rest of a text give the characters of that text, and no failure. -/
theorem receive_of_delivered {reads : List Read} {waiting bytes : List UInt8} {cs : List Char}
    (hpending : IsPending waiting) (hdelivered : delivered reads = some bytes)
    (hcs : waiting ++ bytes = Utf8.encode cs) : receive waiting reads = ⟨cs, none⟩ := by
  fun_induction receive waiting reads generalizing bytes cs with
  | case1 waiting =>
    obtain rfl : [] = bytes := by simpa [delivered] using hdelivered
    obtain ⟨rfl, rfl⟩ := eq_nil_of_isPending hpending (by simpa using hcs)
    rfl
  | case2 waiting reads ih => exact ih hpending hdelivered hcs
  | case3 => simp [delivered] at hdelivered
  | case4 waiting reads =>
    obtain rfl : [] = bytes := by simpa [delivered] using hdelivered
    obtain ⟨rfl, rfl⟩ := eq_nil_of_isPending hpending (by simpa using hcs)
    rfl
  | case5 waiting b block reads ds hdecode ih =>
    obtain ⟨later, hlater, rfl⟩ := Option.map_eq_some_iff.mp hdelivered
    rw [← List.append_assoc, Utf8.eq_encode_of_decode hdecode] at hcs
    obtain ⟨rest, rfl, hrest⟩ := Utf8.exists_of_encode_append hcs
    rw [ih (.inl rfl) hlater hrest]
    rfl
  | case6 waiting b block reads ds left hdecode ih =>
    obtain ⟨later, hlater, rfl⟩ := Option.map_eq_some_iff.mp hdelivered
    obtain ⟨hbytes, -, hleft⟩ := Utf8.eq_append_of_decode hdecode
    rw [← List.append_assoc, hbytes, List.append_assoc] at hcs
    obtain ⟨rest, rfl, hrest⟩ := Utf8.exists_of_encode_append hcs
    rw [ih (.inr hleft) hlater hrest]
    rfl
  | case7 waiting b block reads ds length hdecode =>
    obtain ⟨later, hlater, rfl⟩ := Option.map_eq_some_iff.mp hdelivered
    -- What belongs to no character stays so, whatever the later blocks bring.
    have hinvalid := Utf8.decode_append_of_invalid hdecode later
    rw [List.append_assoc, hcs, Utf8.decode_encode] at hinvalid
    simp at hinvalid

/-- Reads that deliver the bytes of a text give the source of that text. -/
theorem ofReads_of_delivered {reads : List Read} {s : String}
    (h : delivered reads = some s.toUTF8.data.toList) : ofReads reads = ofString s := by
  rw [Utf8.toList_data_toUTF8] at h
  exact receive_of_delivered (.inl rfl) ((delivered_flatMap_blocks reads).trans h) rfl

/-- Reading the bytes of a text from memory gives the text. -/
theorem ofReads_toUTF8 (s : String) :
    ofReads [.bytes s.toUTF8.data.toList] = ofString s := by
  refine ofReads_of_delivered ?_
  cases s.toUTF8.data.toList <;> simp [delivered]

end Source

namespace Markup

/-- A source that fails is never read to its end. -/
theorem Tokens.read_error_ne_none (mode : Mode) (failure : ReadFailure) (p : Position)
    (block : Option Location) (body : Option String) (cs : List Char) :
    (read mode (some failure) p block body cs).error ≠ none := by
  fun_induction read mode (some failure) p block body cs with
  | case1 | case4 | case7 => simp
  | case5 | case6 => contradiction
  | case2 p block cs name text rest hrun after htext ih => simpa [htext] using ih
  | case3 p block cs name text rest hrun after htext ih => simpa [htext, prepend] using ih
  | case8 p block c cs ls rest hunit ih => simpa [prepend] using ih

theorem failure_of_parseSource {options : Options} {s : Source} {d : Document}
    (h : parseSource options s = .ok d) : s.failure = none := by
  obtain ⟨herror, -⟩ := render_of_parseSource h
  cases hfailure : s.failure with
  | none => rfl
  | some failure =>
    rw [tokenize, hfailure] at herror
    exact (Tokens.read_error_ne_none _ _ _ _ _ _ herror).elim

end Markup
end NaturalTemplate
