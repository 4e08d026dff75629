import Cherubsh.Expander.ArrayFields

/-! # The keys of an array, `"${!a[@]}"`

The keys are written in quotes, but the spaces between them are not: they separate fields
only where IFS holds a space. Without one, all the keys make one field.
-/
namespace Cherubsh.Expander.Parameters
open Utf8 Split Buffer Words List
open ParamScanning (asciiBytes isNameByte)

section
variable {ifs : Option Text} {vs : List Text} (hvs : ∀ v ∈ vs, '\x00' ∉ v)

theorem isIfs_fromEnv (value : Option Text) (b : UInt8) : (IfsState.fromEnv value).isIfs b = (ifsBytes value).contains b := by
  rw [fromEnv_eq]
  rfl

def spaced (vs : List Text) : List Piece := List.intercalate [.plain 0x20] (vs.map fun v => quoteText (encode v))

include hvs

theorem bare_spaced : Bare (spaced vs) := by
  intro p hp
  obtain hp | ⟨part,hpa,hp⟩ := mem_intercalate hp
  · exact .inl (mem_singleton.mp hp)
  · obtain ⟨v,hv,rfl⟩ := mem_map.mp hpa
    exact .inr (bare_of_mem_quoteText (by simpa [zero_mem_encode] using hvs v hv) hp)

theorem split_spaced_values (hs : 0x20 ∈ ifsBytes ifs) :
    split (write (spaced vs)) (IfsState.fromEnv ifs) = vs.map fun v => write (quoteText (encode v)) := by
  cases vs with
  | nil => exact split_stays (separated_fromEnv ifs) (by simp [spaced])
  | cons v vs =>
    have hs' : (IfsState.fromEnv ifs).isIfs 0x20 := by simpa [isIfs_fromEnv] using hs
    have hgr : ∀ g ∈ quoteText (encode v) :: vs.map (fun v => quoteText (encode v)), Group (IfsState.fromEnv ifs) g := by
      intro g hg
      obtain ⟨w,hw,rfl⟩ := mem_map.mp (show g ∈ (v :: vs).map fun v => quoteText (encode v) from hg)
      exact group_quoteText (by simpa [zero_mem_encode] using hvs w hw)
    have hsp : spaced (v :: vs) = quoteText (encode v) ++
        (vs.map fun v => quoteText (encode v)).flatMap fun h => .plain 0x20 :: h := intercalate_cons [Piece.plain 0x20] _ _
    rw [hsp,split_spaced (separated_fromEnv ifs) hs' hgr]
    simp [Function.comp_def]

theorem stays_spaced (hs : 0x20 ∉ ifsBytes ifs) : ∀ p ∈ spaced vs, Stays (IfsState.fromEnv ifs) p := by
  intro p hp
  obtain rfl | rfl | ⟨b,hb,rfl⟩ := bare_spaced hvs p hp
  · exact ⟨by decide,by simpa [isIfs_fromEnv] using hs⟩
  · trivial
  · exact hb
end

section
variable {S E : Type} (W : Shell S E) {ctx : ExpCtx S}

def HoldsKeys (s : S) (name : Bytes) (keys : List Text) : Prop :=
  let base := if W.nameref s name then (resolve W s name).getD name else name
  (W.kind s base = .indexed ∧ ∃ ks, W.arrayKeys s base = some ks ∧ ks.map integerText = keys) ∨
    (W.kind s base = .assoc ∧ W.assocKeys s base = some keys)

theorem bytes_pushKeys (keys : List Text) :
    (pushKeys keys false true (some 0x20) .new).bytes = write (spaced keys) := by
  have hb : ∀ out : ExpandBuf, (out.pushLiteral 0x20).bytes = out.bytes ++ write [.plain 0x20] := fun _ => rfl
  have hp := bytes_pushEach .new [.plain 0x20] (fun k : Text => quoteText (encode k)) hb
    (fun out k => bytes_pushValue_quoted out (encode k)) keys
  simpa [pushKeys,spaced,ExpandBuf.new] using hp

theorem expandBraceBody_indirect (inner : Flags → Bool → Bytes → Expand S E ExpandBuf) {rest : Bytes} (hne : rest ≠ [])
    (hm : markIsParameter '!' ('!' :: rest) = false)
    (hh : (rest.head?.any fun c => c = '?'.toUInt8 || c = '-'.toUInt8) = false) (quoted : Bool) (out : ExpandBuf) :
    expandBraceBody W inner ('!'.toUInt8 :: rest) quoted out ctx = handleIndirection W rest quoted out ctx := by
  simp +decide [expandBraceBody,hne,hm,hh]

variable {name : Bytes} (hname : isValidName name)
include hname

theorem expandBraceBody_keys (inner : Flags → Bool → Bytes → Expand S E ExpandBuf) {keys : List Text}
    (hkeys : HoldsKeys W ctx.env name keys) :
    expandBraceBody W inner ('!' :: (name ++ "[@]")) true .new ctx =
      .ok (pushKeys keys false true (some 0x20) .new,ctx) := by
  obtain ⟨b,name',rfl⟩ := exists_cons_of_ne_nil (show name ≠ [] by rintro rfl; simp [isValidName] at hname)
  have hne : ∀ c, isNameByte c = false → b ≠ c := fun c hc => ne_of_isNameByte (isNameByte_of_isValidName hname b (by simp)) hc
  have hm : markIsParameter '!' ('!' :: (b :: name' ++ "[@]")) = false := by
    simp [markIsParameter,hne ':' (by decide),hne '/' (by decide),hne '%' (by decide),
      hne '=' (by decide),hne '+' (by decide),hne '-' (by decide),hne '?' (by decide)]
  have hp : ((b :: name' ++ "[@]").head?.any fun c => c = '?'.toUInt8 || c = '-'.toUInt8) = false := by
    simp [hne '?' (by decide),hne '-' (by decide)]
  have hl : (b :: name' ++ "[@]").getLast? = some ']'.toUInt8 := by
    rw [List.getLast?_append]
    rfl
  have hb : (b :: name' ++ "[@]").takeWhile (· ≠ '['.toUInt8) = b :: name' := takeWhile_base hname _
  have hi : handleIndirection W (b :: name' ++ "[@]") true .new ctx =
      arrayKeysOf W (b :: name') false true .new ctx := by
    unfold handleIndirection
    simp only [hl,hb,drop_left]
    rfl
  have hbo := @expandBraceBody_indirect S E W ctx inner _ (by simp) hm hp true .new
  rw [hbo,hi]
  obtain ⟨hk,ks,hks,rfl⟩ | ⟨hk,hks⟩ := hkeys <;> simp [arrayKeysOf,hk,hks]

omit hname in
def keysWord (a : Text) : Text := quotedBraces ('!' :: (a ++ "[@]"))

omit hname in
theorem encode_keys (a : Text) : encode ('!' :: (a ++ "[@]")) = '!'.toUInt8 :: (encode a ++ "[@]") := by
  rw [← singleton_append,encode_append,encode_all .each]
  rfl

theorem isBodyByte_keys : ∀ b ∈ '!'.toUInt8 :: (name ++ "[@]"), isBodyByte b :=
  forall_mem_cons.mpr ⟨by decide,isBodyByte_all hname .each⟩

omit hname in
theorem expandWordInternal_keys {a : Text} (hname : isValidName (encode a)) {keys : List Text}
    (hkeys : HoldsKeys W ctx.env (encode a) keys) (noTilde : Bool) :
    expandWordInternal W expansionNestingMax dollarFlags noTilde (encode (keysWord a)) ctx =
      .ok (pushKeys keys false true (some 0x20) .new,ctx) := by
  refine expandWordInternal_braces W ?_ (encloses_of_body ?_ _) ?_ noTilde <;> rw [encode_keys]
  · rfl
  · exact isBodyByte_keys hname
  · exact expandBraceBody_keys W hname _ hkeys

omit hname in
theorem braceExpand_keysWord {a : Text} (hname : isValidName (encode a)) :
    Braces.braceExpand (encode (keysWord a)) = [encode (keysWord a)] := by
  refine braceExpand_quotedBraces ?_
  rw [encode_keys]
  exact isBodyByte_keys hname

section
variable {flags : ExpandFlags} (hsplit : flags.splitFields) {a : Text} (ha : isValidName (encode a))
  {keys : List Text} (hnul : ∀ k ∈ keys, '\x00' ∉ k) (hkeys : HoldsKeys W ctx.env (encode a) keys)
include hsplit ha hnul hkeys

omit hname in
theorem expandWords_keys_apart (hs : 0x20 ∈ ifsBytes ctx.ifsValue ∨ keys.length ≤ 1) :
    expandWords W [⟨keysWord a,dollarFlags⟩] flags ctx = .ok (keys.map fun k => ⟨k,dollarFlags⟩,ctx) := by
  have hkeys : HoldsKeys W (splitting ctx).env (encode a) keys := hkeys
  refine run_quoted W.toHost hsplit (braceExpand_keysWord ha) (expandWordInternal_keys W ha hkeys flags.noTilde) hnul ?_
  rw [bytes_pushKeys,(bare_spaced hnul).splitFieldMarkers,flatMap_singleton]
  by_cases h : 0x20 ∈ ifsBytes ctx.ifsValue
  · exact split_spaced_values hnul h
  refine (split_stays (separated_fromEnv _) (stays_spaced hnul h)).trans ?_
  -- One key or none: nothing stands between two of them.
  match keys, hs.resolve_left h with
  | [], _ => rfl
  | [k], _ => simp [spaced,quoteText_ne_nil]

omit hname in
theorem expandWords_keys_joined (hs : 0x20 ∉ ifsBytes ctx.ifsValue) (hne : keys ≠ []) :
    expandWords W [⟨keysWord a,dollarFlags⟩] flags ctx = .ok ([toParser (dollarFlags,write (spaced keys))],ctx) := by
  have hkeys : HoldsKeys W (splitting ctx).env (encode a) keys := hkeys
  have hne : spaced keys ≠ [] := by
    match keys, hne with
    | [k], _ => simp [spaced,quoteText_ne_nil]
    | k :: k' :: keys, _ => simp [spaced]
  exact run_bare W.toHost hsplit (braceExpand_keysWord ha) (expandWordInternal_keys W ha hkeys flags.noTilde)
    (bytes_pushKeys keys) hne (bare_spaced hnul) (stays_spaced hnul hs)
end

omit hname in
/-- `"${!a[@]}"` becomes one field for each key just in case there is at most one or IFS holds a space. -/
theorem quotedKeys_exact_iff (flags : ExpandFlags) (hsplit : flags.splitFields) (a : Text)
    (hname : isValidName (encode a)) (keys : List Text) (hnul : ∀ k ∈ keys, '\x00' ∉ k)
    (hkeys : HoldsKeys W ctx.env (encode a) keys) :
    expandWords W [⟨keysWord a,dollarFlags⟩] flags ctx = .ok (keys.map fun k => ⟨k,dollarFlags⟩,ctx) ↔
      keys.length ≤ 1 ∨ 0x20 ∈ ifsBytes ctx.ifsValue := by
  constructor
  · intro h
    by_contra hnot
    obtain ⟨hlong,hspace⟩ := not_or.mp hnot
    have hne : keys ≠ [] := by rintro rfl; simp at hlong
    rw [expandWords_keys_joined W hsplit hname hnul hkeys hspace hne] at h
    have hlength := congrArg (fun r => (r.map fun p => p.1.length).toOption) h
    simp only [Except.map,Except.toOption,Option.some.injEq,length_map,length_singleton] at hlength
    omega
  · exact fun h => expandWords_keys_apart W hsplit hname hnul hkeys h.symm
end

/-- The keys of `a=(x y)` with a colon as IFS are one field. -/
theorem quotedKeys_one_field :
    let ctx := Tables.ctx ⟨[],[],[([0x61],[(0,"x"),(1,"y")])],[]⟩ (some ":")
    HoldsKeys tableShell ctx.env (encode ['a']) [['0'],['1']] ∧
    expandWords tableShell [⟨keysWord ['a'],dollarFlags⟩] commandFlags ctx = .ok ([⟨"0 1",dollarFlags⟩],ctx) := by
  intro ctx
  have hkeys : HoldsKeys tableShell ctx.env (encode ['a']) [['0'],['1']] := .inl ⟨rfl,_,rfl,by decide⟩
  have hjoined := @expandWords_keys_joined Tables Unit tableShell ctx commandFlags rfl ['a'] (by decide) _ (by decide) hkeys
    (by decide) (by simp)
  have hfield : toParser (dollarFlags,write (spaced [['0'],['1']])) = ⟨"0 1",dollarFlags⟩ := by decide
  exact ⟨hkeys,by rw [hjoined,hfield]⟩

/-- The keys of `a=(x y)` with IFS unset. -/
theorem quotedKeys_exact_default :
    let ctx := Tables.ctx ⟨[],[],[([0x61],[(0,"x"),(1,"y")])],[]⟩ none
    expandWords tableShell [⟨keysWord ['a'],dollarFlags⟩] commandFlags ctx =
      .ok ([⟨['0'],dollarFlags⟩,⟨['1'],dollarFlags⟩],ctx) := by
  intro ctx
  have hkeys : HoldsKeys tableShell ctx.env (encode ['a']) [['0'],['1']] := .inl ⟨rfl,_,rfl,by decide⟩
  exact (@quotedKeys_exact_iff Tables Unit tableShell ctx commandFlags rfl ['a'] (by decide) _ (by decide) hkeys).mpr
    (.inr (by decide))
end Cherubsh.Expander.Parameters
