import Cherubsh.Expander.ArrayFields

/-! # The lists `"$*"` and `"${a[*]}"`

Both words become one field, the elements with a separator between them. The separator of
`"$*"` is the first character of IFS, the one of `"${a[*]}"` only the first byte of it.
-/
namespace Cherubsh.Expander.Parameters
open Utf8 Buffer ShellString Words List
open ParamScanning (asciiBytes)

section
variable {sep : Bytes} {vs : List Text}

def joinedPieces (sep : Bytes) (vs : List Text) : List Piece :=
  if vs = [] then [.empty] else List.intercalate (sep.map .quoted) (vs.map fun v => quoteText (encode v))

theorem text_joinedPieces (sep : Bytes) (vs : List Text) :
    (joinedPieces sep vs).flatMap Piece.text = sep.intercalate (vs.map encode) := by
  cases vs with
  | nil => rfl
  | cons v vs => simp [joinedPieces,intercalate_cons,flatMap_assoc,flatMap_map,Piece.text]

theorem joinedPieces_ne_nil (sep : Bytes) (vs : List Text) : joinedPieces sep vs ≠ [] := by
  cases vs <;> simp [joinedPieces,intercalate_cons,quoteText_ne_nil]

theorem bare_of_mem_joinedPieces (hs : 0 ∉ sep) (hvs : ∀ v ∈ vs, '\x00' ∉ v) {p : Piece} (hp : p ∈ joinedPieces sep vs) :
    p = .empty ∨ ∃ b, b ≠ 0 ∧ p = .quoted b := by
  unfold joinedPieces at hp
  split at hp
  · exact .inl (mem_singleton.mp hp)
  · obtain hp | ⟨part,hpa,hp⟩ := mem_intercalate hp
    · obtain ⟨b,hb,rfl⟩ := mem_map.mp hp
      exact .inr ⟨b,fun h => hs (h ▸ hb),rfl⟩
    · obtain ⟨v,hv,rfl⟩ := mem_map.mp hpa
      exact bare_of_mem_quoteText (mt zero_mem_encode.mp (hvs v hv)) hp
end

section
def separator : Option Text → Text
  | none => [' ']
  | some text => text.take 1

variable {ifs : Option Text} (hvalid : ∀ text ∈ ifs, ¬∃ ch ∈ text, Raw ch)

include hvalid in
theorem joinSeparators : (joinSeparatorBytes ifs).getD [] = encode (separator ifs) ∧
    (joinSeparator ifs).toList = (encode (separator ifs)).take 1 ∧ ∀ c ∈ separator ifs, ¬Raw c := by
  match ifs with
  | none => exact ⟨rfl,rfl,by simp +decide [separator,Raw]⟩
  | some [] => exact ⟨rfl,rfl,by simp [separator]⟩
  | some (c :: text) =>
    have ht := hvalid _ rfl
    have hb := (shellStringToBytes_eq_iff (c :: text)).mpr ht
    obtain ⟨b,tail,hc⟩ := exists_cons_of_ne_nil (show String.utf8EncodeChar c ≠ [] by simp)
    simp only [joinSeparatorBytes,joinSeparator,hb,fromUtf8_encode]
    simp_all [separator]

theorem decode_joined (s : Text) (vs : List Text) :
    bytesToShellString ((encode s).intercalate (vs.map encode)) = s.intercalate vs := by
  have he : (encode s).intercalate (vs.map encode) = encode (s.intercalate vs) := by
    cases vs <;> simp [intercalate_cons,encode,flatMap_map,flatMap_assoc]
  rw [he,bytesToShellString_encode]

theorem decode_joined_lead {c : Char} (hr : ¬Raw c) (hl : 1 < (String.utf8EncodeChar c).length) (v w : Text) (vs : List Text) :
    bytesToShellString (((encode [c]).take 1).intercalate ((v :: w :: vs).map encode)) ≠ [c].intercalate (v :: w :: vs) := by
  obtain ⟨b,tail,hc⟩ := exists_cons_of_ne_nil (ne_nil_of_length_pos (Nat.zero_lt_of_lt hl))
  have hn : ∀ x ∈ (encode w ++ vs.flatMap fun v => b :: encode v).head?, isContinuation x = false := by
    intro x hx
    match w, vs with
    | d :: w, _ =>
      obtain ⟨y,ys,hd⟩ := exists_cons_of_ne_nil (show String.utf8EncodeChar d ≠ [] by simp)
      have hy : y = x := by simpa [hd] using hx
      exact hy ▸ isContinuation_head hd
    | [], [] => simp at hx
    | [], _ :: _ =>
      have hb : b = x := by simpa using hx
      exact hb ▸ isContinuation_head hc
  have hby : ((encode [c]).take 1).intercalate ((v :: w :: vs).map encode) =
      encode v ++ b :: (encode w ++ vs.flatMap fun v => b :: encode v) := by
    simp [hc,intercalate_cons,flatMap_map]
  intro h
  obtain ⟨after,ha⟩ := bytesToShellString_lead hl hc hn v
  rw [← hby,h,intercalate_cons,append_assoc,append_cancel_left_eq] at ha
  have hb := b.toNat_lt
  apply hr
  rw [← (List.cons.inj ha).1,Raw,toNat_raw (by omega)]
  omega

theorem decode_joined_iff {s : Text} (hs : s.length ≤ 1) (hr : ∀ c ∈ s, ¬Raw c) (vs : List Text) :
    bytesToShellString (((encode s).take 1).intercalate (vs.map encode)) = s.intercalate vs ↔
      vs.length < 2 ∨ ∀ c ∈ s, c.utf8Size = 1 := by
  match s, vs with
  | _, [] => simp [bytesToShellString,bytesToShellStringFrom]
  | _, [v] => simp [bytesToShellString_encode]
  | [], vs => exact iff_of_true (decode_joined [] vs) (.inr (by simp))
  | [c], v :: w :: vs =>
    by_cases ho : c.utf8Size = 1
    · rw [take_of_length_le (by simp [String.length_utf8EncodeChar,ho])]
      exact iff_of_true (decode_joined [c] _) (.inr (by simpa using ho))
    · have hl : 1 < (String.utf8EncodeChar c).length := by
        have := c.utf8Size_pos
        rw [String.length_utf8EncodeChar]
        omega
      exact iff_of_false (decode_joined_lead (hr c (by simp)) hl v w vs) (by simp [ho])
end

section
variable {S E : Type} (W : Shell S E) (flags : ExpandFlags) (ctx : ExpCtx S)

def Becomes (word field : Text) : Prop := expandWords W [⟨word,dollarFlags⟩] flags ctx = .ok ([⟨field,dollarFlags⟩],ctx)

/-- A list of strings, as positional parameters and as the elements of an array, and a valid IFS. -/
structure Listed (ifs : Option Text) (a : Text) (vs : List Text) : Prop where
  get_ifs : W.get ctx.env "IFS" = ifs
  valid : ∀ text ∈ ifs, ¬∃ ch ∈ text, Raw ch
  positional : W.positional ctx.env = vs
  name : isValidName (encode a)
  list : HoldsList W ctx.env (encode a) vs
  separator_nul : '\x00' ∉ separator ifs
  nul : ∀ v ∈ vs, '\x00' ∉ v

variable {W flags ctx} {vs : List Text}

theorem becomes_joined {word : Text} {buf : ExpandBuf} (hsplit : flags.splitFields)
    (hw : Braces.braceExpand (encode word) = [encode word] ∧ expandWordInternal W expansionNestingMax dollarFlags flags.noTilde
      (encode word) (splitting ctx) = .ok (buf,splitting ctx)) {sep : Bytes} (hs : 0 ∉ sep) (hvs : ∀ v ∈ vs, '\x00' ∉ v)
    (hbu : buf.bytes = write (joinedPieces sep vs)) (field : Text) :
    Becomes W flags ctx word field ↔ bytesToShellString (sep.intercalate (vs.map encode)) = field := by
  have hba := fun p => @bare_of_mem_joinedPieces sep vs hs hvs p
  have hz : .quoted 0 ∉ joinedPieces sep vs := fun h => by simpa using hba _ h
  have hr := run_bare W.toHost hsplit hw.1 hw.2 hbu (joinedPieces_ne_nil sep vs) (fun p hp => .inr (hba p hp)) fun p hp => by
    obtain rfl | ⟨b,hb,rfl⟩ := hba p hp
    · trivial
    · exact hb
  unfold Becomes expandWords
  rw [hr]
  simp [toParser,dequoteBytes_write hz,text_joinedPieces,splitting]

theorem pushPositional_joined (ctx : ExpCtx S) : ∃ out, pushPositional W true true .new ctx = .ok (out,ctx) ∧
    out.bytes = write (joinedPieces ((joinSeparatorBytes (W.get ctx.env "IFS")).getD []) (W.positional ctx.env)) := by
  cases hvs : W.positional ctx.env with
  | nil => exact ⟨ExpandBuf.new.pushQuotedNull,by simp [pushPositional,hvs],rfl⟩
  | cons v vs =>
    refine ⟨_,by simp [pushPositional,hvs]; rfl,?_⟩
    refine bytes_pushEach .new _ (fun v => quoteText (encode v)) (fun out => ?_)
      (fun out v => bytes_pushArrayElementValue_quoted out (encode v) false) (v :: vs)
    cases joinSeparatorBytes (W.get ctx.env "IFS") <;> simp

theorem pushParameterValue_joined {name : Bytes} (hn : isValidName name) (hvs : HoldsList W ctx.env name vs) :
    ∃ out, pushParameterValue W (name ++ "[*]") true .new ctx = .ok (out,ctx) ∧
      out.bytes = write (joinedPieces (joinSeparator (W.get ctx.env "IFS")).toList vs) := by
  refine ⟨pushArrayValues .new vs (listForm ctx true true (joinSeparator (W.get ctx.env "IFS"))),?_,?_⟩
  · simp +decide [pushParameterValue,readValue_all W hn .joined hvs,arrayAllRef_all hn .joined,valueSeparator]
  cases vs with
  | nil => rfl
  | cons v vs =>
    simp only [pushArrayValues,pushArrayValuesImpl,listForm,isEmpty_cons,Bool.and_false,Bool.not_true,Bool.false_and,
      Bool.false_eq_true,if_false]
    refine bytes_pushEach .new _ (fun v => quoteText (encode v)) (fun out => ?_)
      (fun out v => bytes_pushArrayElementValue_quoted out (encode v) false) (v :: vs)
    cases joinSeparator (W.get ctx.env "IFS") <;> simp [pushByte,ExpandBuf.pushQuoted,Piece.bytes]

variable (hsplit : flags.splitFields) {ifs : Option Text} {a : Text} (h : Listed W ctx ifs a vs)
include hsplit h

theorem becomes_positional : Becomes W flags ctx "\"$*\"" ((separator ifs).intercalate vs) := by
  obtain ⟨out,hp,hb⟩ := pushPositional_joined (W := W) (splitting ctx)
  have hw := expandWordInternal_positional W .joined "\"$*\"" (by decide) hp flags.noTilde
  rw [show (splitting ctx).env = ctx.env from rfl,h.get_ifs,h.positional,(joinSeparators h.valid).1] at hb
  exact (becomes_joined hsplit hw (mt zero_mem_encode.mp h.separator_nul) h.nul hb _).mpr (decode_joined _ vs)

theorem becomes_all_iff : Becomes W flags ctx (quotedBraces (a ++ "[*]")) ((separator ifs).intercalate vs) ↔
    vs.length < 2 ∨ ∀ c ∈ separator ifs, c.utf8Size = 1 := by
  have hl : HoldsList W (splitting ctx).env (encode a) vs := h.list
  obtain ⟨out,hp,hb⟩ := pushParameterValue_joined h.name hl
  have hw := expandWordInternal_all W .joined h.name hp flags.noTilde
  obtain ⟨-,hj,hr⟩ := joinSeparators h.valid
  rw [show (splitting ctx).env = ctx.env from rfl,h.get_ifs,hj] at hb
  have hz : 0 ∉ (encode (separator ifs)).take 1 := fun hm => h.separator_nul (zero_mem_encode.mp (mem_of_mem_take hm))
  have hs : (separator ifs).length ≤ 1 := by
    cases ifs <;> simp [separator]
  rw [becomes_joined hsplit hw hz h.nul hb,decode_joined_iff hs hr]

/-- Both are the elements joined by the first character of IFS exactly if there is nothing to join
or it has one byte. -/
theorem joinedLists_iff : Becomes W flags ctx "\"$*\"" ((separator ifs).intercalate vs) ∧
      Becomes W flags ctx (quotedBraces (a ++ "[*]")) ((separator ifs).intercalate vs) ↔
    vs.length < 2 ∨ ∀ c ∈ separator ifs, c.utf8Size = 1 :=
  (and_iff_right (becomes_positional hsplit h)).trans (becomes_all_iff hsplit h)
end

def twoElements (ifs : String) : ExpCtx Tables :=
  Tables.ctx ⟨["x","y"],[("IFS",ifs.toList)],[([0x61],[(0,"x"),(1,"y")])],[]⟩ (some ifs)

theorem listed_twoElements {ifs : String} (hvalid : ∀ c ∈ ifs.toList, c ≠ '\x00' ∧ ¬Raw c) :
    Listed tableShell (twoElements ifs) (some ifs.toList) ['a'] ["x","y"] where
  get_ifs := rfl
  valid := by
    rintro _ ⟨⟩ ⟨c,hc,hr⟩
    exact (hvalid c hc).2 hr
  positional := rfl
  name := by decide
  list := ⟨[0x61],rfl,.inl ⟨rfl,[(0,"x"),(1,"y")],rfl,rfl⟩⟩
  separator_nul hm := (hvalid _ (mem_of_mem_take hm)).1 rfl
  nul := by decide

theorem joinedLists_iff_colon : Becomes tableShell commandFlags (twoElements ":") "\"$*\"" "x:y" ∧
    Becomes tableShell commandFlags (twoElements ":") (quotedBraces "a[*]") "x:y" :=
  (joinedLists_iff rfl (listed_twoElements (by simp +decide [Raw]))).mpr (.inr (by decide))

/-- With `é` in IFS the elements of the array are joined by the first of its two bytes. -/
theorem joinedLists_accent : ¬(Becomes tableShell commandFlags (twoElements "é") "\"$*\"" "xéy" ∧
    Becomes tableShell commandFlags (twoElements "é") (quotedBraces "a[*]") "xéy") := by
  rintro ⟨-,h⟩
  have hone := (becomes_all_iff rfl (listed_twoElements (by simp +decide [Raw]))).mp h
  revert hone
  decide
end Cherubsh.Expander.Parameters
