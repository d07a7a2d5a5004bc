import HostScript.Disk.Path
import HostScript.Proofs.Text.Split
import Mathlib.Data.List.TakeWhile

/-!
Paths below a directory. A name that is joined to a path becomes its last component, so the path of an entry
tells the names that lead to it.
-/

set_option autoImplicit false

namespace HostScript

namespace Path

/-- A component that is not cleaned away by itself. -/
structure IsPart (part : String) : Prop where
  ne_empty : part ≠ ""
  ne_dot : part ≠ "."
  no_slash : '/' ∉ part.toList

/-- What an entry of a directory can be called. -/
structure IsName (name : String) : Prop extends IsPart name where
  ne_up : name ≠ ".."

instance (name : String) : Decidable (IsName name) :=
  decidable_of_iff ((name ≠ "" ∧ name ≠ "." ∧ '/' ∉ name.toList) ∧ name ≠ "..")
    ⟨fun ⟨⟨he, hd, hs⟩, hu⟩ => ⟨⟨he, hd, hs⟩, hu⟩, fun h => ⟨⟨h.ne_empty, h.ne_dot, h.no_slash⟩, h.ne_up⟩⟩

theorem isPart_of_mem_components {path part : String} (h : part ∈ components path) : IsPart part := by
  obtain ⟨hsplit, hkept⟩ := List.mem_filter.mp h
  obtain ⟨cs, hcs, rfl⟩ := List.mem_map.mp hsplit
  simp only [Bool.and_eq_true, Bool.not_eq_true', bne_iff_ne, ne_eq, String.isEmpty_eq_false_iff] at hkept
  exact ⟨hkept.1, hkept.2, fun hslash => (of_mem_splitChars hcs '/' (by simpa using hslash)).1 rfl⟩

theorem components_append (a b : String) : components (a ++ "/" ++ b) = components a ++ components b := by
  have htext : (a ++ "/" ++ b).toList = a.toList ++ '/' :: b.toList := by simp
  rw [components, splitString, htext, splitChars_append, List.map_append, List.filter_append]
  rfl

theorem filter_isPart {parts : List String} (h : ∀ part ∈ parts, IsPart part) :
    (parts.filter fun part => !part.isEmpty && part != ".") = parts := by
  refine List.filter_eq_self.mpr fun part hpart => ?_
  simp [(h part hpart).ne_empty, (h part hpart).ne_dot]

theorem components_intercalate {parts : List String} (h : ∀ part ∈ parts, IsPart part) (hne : parts ≠ []) :
    components (String.intercalate "/" parts) = parts := by
  have hslash : ∀ cs ∈ parts.map String.toList, '/' ∉ cs := by
    rintro cs hcs
    obtain ⟨part, hpart, rfl⟩ := List.mem_map.mp hcs
    exact (h part hpart).no_slash
  have hsplit : splitString '/' (String.intercalate "/" parts) = parts := by
    rw [splitString, String.toList_intercalate, splitChars_eq_splitOn, show "/".toList = ['/'] from rfl,
      List.splitOn_intercalate '/' hslash (by simpa using hne), List.map_map]
    simp [Function.comp_def]
  rw [components, hsplit, filter_isPart h]

theorem components_of_isPart {part : String} (h : IsPart part) : components part = [part] := by
  have hone : ∀ p ∈ [part], IsPart p := fun p hp => List.mem_singleton.mp hp ▸ h
  simpa using components_intercalate hone (by simp)

theorem isAbsolute_append {a : String} (h : a ≠ "") (b : String) : isAbsolute (a ++ b) = isAbsolute a := by
  obtain ⟨c, cs, hcs⟩ := List.exists_cons_of_ne_nil (l := a.toList) (by simpa using h)
  simp [isAbsolute, hcs]

theorem isAbsolute_of_isPart {part : String} (h : IsPart part) : isAbsolute part = false := by
  refine beq_eq_false_iff_ne.mpr fun hhead => h.no_slash ?_
  exact List.mem_of_mem_head? (by simp [hhead])

theorem extension_append (front : String) {name : String} (h : '/' ∉ name.toList) :
    extension (front ++ "/" ++ name) = extension name := by
  have hall : ∀ c ∈ name.toList.reverse, (c != '/') = true := fun c hc =>
    bne_iff_ne.mpr fun heq => h (heq ▸ List.mem_reverse.mp hc)
  have htail : (front ++ "/" ++ name).toList.reverse.takeWhile (· != '/') = name.toList.reverse := by
    simp [List.takeWhile_append_of_pos hall]
  have hname : name.toList.reverse.takeWhile (· != '/') = name.toList.reverse :=
    List.takeWhile_eq_self_iff.mpr hall
  rw [extension, extension, htail, hname]

/-- Double dots stand only in front, and there are none behind the root. -/
structure Settled (rooted : Bool) (parts : List String) : Prop where
  front : parts.Pairwise fun before part => part = ".." → before = ".."
  rooted_notMem : rooted = true → ".." ∉ parts

theorem Settled.of_append {rooted : Bool} {front back : List String} (h : Settled rooted (front ++ back)) :
    Settled rooted front :=
  ⟨(List.pairwise_append.mp h.front).1, fun hr hmem => h.rooted_notMem hr (List.mem_append_left back hmem)⟩

theorem Settled.all_up {rooted : Bool} {front : List String} (h : Settled rooted (front ++ [".."])) :
    rooted = false ∧ ∀ part ∈ front, part = ".." := by
  refine ⟨Bool.eq_false_iff.mpr fun hr => h.rooted_notMem hr (by simp), fun part hpart => ?_⟩
  exact (List.pairwise_append.mp h.front).2.2 part hpart ".." (by simp) rfl

theorem Settled.concat {rooted : Bool} {parts : List String} {part : String} (h : Settled rooted parts)
    (hpart : part = ".." → rooted = false ∧ ∀ before ∈ parts, before = "..") :
    Settled rooted (parts ++ [part]) := by
  refine ⟨List.pairwise_append.mpr ⟨h.front, List.pairwise_singleton _ _, ?_⟩, fun hr hmem => ?_⟩
  · intro before hbefore last hlast hup
    exact (hpart (List.mem_singleton.mp hlast ▸ hup)).2 before hbefore
  · rcases List.mem_append.mp hmem with hmem | hmem
    · exact h.rooted_notMem hr hmem
    · rw [(hpart (List.mem_singleton.mp hmem).symm).1] at hr
      cases hr

/-- A double dot is kept only on top of others, so what is kept has them in front. -/
theorem settled_reduce {rooted : Bool} {kept parts : List String} (h : Settled rooted kept.reverse) :
    Settled rooted (reduce rooted kept parts) := by
  fun_induction reduce rooted kept parts with
  | case1 => exact h
  | case2 part parts hup last before hlast ih =>
    obtain rfl : last = ".." := by simpa using hlast
    rw [List.reverse_cons] at h
    refine ih ?_
    rw [List.reverse_cons, List.reverse_cons]
    refine h.concat fun _ => ⟨h.all_up.1, fun q hq => ?_⟩
    rcases List.mem_append.mp hq with hq | hq
    · exact h.all_up.2 q hq
    · exact List.mem_singleton.mp hq
  | case3 part parts hup last before hlast ih =>
    rw [List.reverse_cons] at h
    exact ih h.of_append
  | case4 part parts hup ih =>
    refine ih ?_
    cases rooted with
    | true => exact h
    | false => exact ⟨List.pairwise_singleton _ _, nofun⟩
  | case5 kept part parts hup ih =>
    refine ih ?_
    rw [List.reverse_cons]
    exact h.concat fun heq => absurd heq (by simpa using hup)

theorem reduce_of_settled {rooted : Bool} {kept parts : List String} (h : Settled rooted (kept.reverse ++ parts)) :
    reduce rooted kept parts = kept.reverse ++ parts := by
  induction parts generalizing kept with
  | nil => simp [reduce]
  | cons part parts ih =>
    have hnext : kept.reverse ++ part :: parts = (part :: kept).reverse ++ parts := by simp
    have hkept : reduce rooted kept (part :: parts) = reduce rooted (part :: kept) parts := by
      by_cases hup : part = ".."
      · subst hup
        rw [hnext, List.reverse_cons] at h
        obtain ⟨rfl, hall⟩ := h.of_append.all_up
        cases kept with
        | nil => simp [reduce]
        | cons last before =>
          obtain rfl := hall last (by simp)
          simp [reduce]
      · simp [reduce, hup]
    rw [hkept, ih (hnext ▸ h), ← hnext]

theorem reduce_concat {rooted : Bool} {kept parts : List String} {part : String} (h : part ≠ "..") :
    reduce rooted kept (parts ++ [part]) = reduce rooted kept parts ++ [part] := by
  fun_induction reduce rooted kept parts with
  | case1 kept => simp [reduce, h]
  | case2 first parts hup last before hlast ih => simpa [reduce, hup, hlast] using ih
  | case3 first parts hup last before hlast ih => simpa [reduce, hup, hlast] using ih
  | case4 first parts hup ih => simpa [reduce, hup] using ih
  | case5 kept first parts hup ih => simpa [reduce, hup] using ih

theorem mem_reduce {rooted : Bool} {kept parts : List String} {part : String}
    (h : part ∈ reduce rooted kept parts) : part ∈ kept ∨ part ∈ parts := by
  fun_induction reduce rooted kept parts with
  | case1 kept => exact .inl (List.mem_reverse.mp h)
  | case2 first parts hup last before hlast ih =>
    rcases ih h with h | h
    · rcases List.mem_cons.mp h with rfl | h
      · exact .inr List.mem_cons_self
      · exact .inl h
    · exact .inr (List.mem_cons_of_mem _ h)
  | case3 first parts hup last before hlast ih =>
    exact (ih h).imp (List.mem_cons_of_mem _) (List.mem_cons_of_mem _)
  | case4 first parts hup ih =>
    rcases ih h with h | h
    · split at h
      · cases h
      · exact .inr (List.mem_singleton.mp h ▸ List.mem_cons_self)
    · exact .inr (List.mem_cons_of_mem _ h)
  | case5 kept first parts hup ih =>
    rcases ih h with h | h
    · rcases List.mem_cons.mp h with rfl | h
      · exact .inr List.mem_cons_self
      · exact .inl h
    · exact .inr (List.mem_cons_of_mem _ h)

def parts (path : String) : List String := reduce (isAbsolute path) [] (components path)

def ofParts (rooted : Bool) (parts : List String) : String :=
  if rooted then "/" ++ String.intercalate "/" parts else String.intercalate "/" parts

theorem isPart_of_mem_parts {path part : String} (h : part ∈ parts path) : IsPart part :=
  isPart_of_mem_components ((mem_reduce h).resolve_left List.not_mem_nil)

theorem settled_parts (path : String) : Settled (isAbsolute path) (parts path) :=
  settled_reduce ⟨List.Pairwise.nil, fun _ => List.not_mem_nil⟩

theorem ofParts_concat (rooted : Bool) (ps : List String) (name : String) :
    ofParts rooted (ps ++ [name]) = name ∨ ∃ front, ofParts rooted (ps ++ [name]) = front ++ "/" ++ name := by
  by_cases hne : ps = []
  · subst hne
    rw [List.nil_append, ofParts, String.intercalate_singleton]
    cases rooted with
    | true => exact .inr ⟨"", rfl⟩
    | false => exact .inl rfl
  · rw [ofParts, String.intercalate_append_of_ne_nil hne (by simp), String.intercalate_singleton]
    cases rooted with
    | true => exact .inr ⟨"/" ++ String.intercalate "/" ps, by simp [String.append_assoc]⟩
    | false => exact .inr ⟨_, rfl⟩

section OfParts

variable {rooted : Bool} {ps : List String} (h : ∀ part ∈ ps, IsPart part) (hne : ps ≠ [])

include h hne

theorem isAbsolute_ofParts : isAbsolute (ofParts rooted ps) = rooted := by
  cases rooted with
  | true => simp [ofParts, isAbsolute]
  | false =>
    obtain ⟨first, more, rfl⟩ := List.exists_cons_of_ne_nil hne
    have hfirst := h first List.mem_cons_self
    rw [ofParts, if_neg Bool.false_ne_true]
    cases more with
    | nil => rw [String.intercalate_singleton, isAbsolute_of_isPart hfirst]
    | cons next more =>
      rw [String.intercalate_cons_cons, String.append_assoc, isAbsolute_append hfirst.ne_empty,
        isAbsolute_of_isPart hfirst]

theorem components_ofParts : components (ofParts rooted ps) = ps := by
  cases rooted with
  | true =>
    have hroot := components_append "" (String.intercalate "/" ps)
    rw [components_intercalate h hne] at hroot
    exact hroot
  | false => exact components_intercalate h hne

theorem ofParts_ne_empty : ofParts rooted ps ≠ "" := by
  intro heq
  have hparts : components (ofParts rooted ps) = ps := components_ofParts h hne
  rw [heq] at hparts
  exact hne hparts.symm

theorem parts_ofParts (hs : Settled rooted ps) : parts (ofParts rooted ps) = ps := by
  rw [parts, isAbsolute_ofParts h hne, components_ofParts h hne]
  exact reduce_of_settled hs

end OfParts

theorem clean_eq {path : String} (hne : parts path ≠ []) :
    clean path = ofParts (isAbsolute path) (parts path) := by
  have htext : ofParts false (parts path) ≠ "" := ofParts_ne_empty (fun _ => isPart_of_mem_parts) hne
  rw [ofParts, if_neg Bool.false_ne_true, parts] at htext
  simp only [clean, ofParts, parts]
  split
  · rfl
  · rw [if_neg (by simpa using htext)]

theorem isPart_of_mem_concat {path name part : String} (hname : IsName name)
    (h : part ∈ parts path ++ [name]) : IsPart part := by
  rcases List.mem_append.mp h with h | h
  · exact isPart_of_mem_parts h
  · exact List.mem_singleton.mp h ▸ hname.toIsPart

section Join

variable {path name : String} (hpath : path ≠ "") (hname : IsName name)

include hpath hname

theorem join_eq : join path name = ofParts (isAbsolute path) (parts path ++ [name]) := by
  have hparts : parts (path ++ "/" ++ name) = parts path ++ [name] := by
    rw [parts, String.append_assoc, isAbsolute_append hpath, ← String.append_assoc, components_append,
      components_of_isPart hname.toIsPart, reduce_concat hname.ne_up]
    rfl
  have hclean : clean (path ++ "/" ++ name) = _ := clean_eq (by simp [hparts])
  rw [hparts, String.append_assoc, isAbsolute_append hpath, ← String.append_assoc] at hclean
  simpa [join, hpath, hname.ne_empty] using hclean

theorem join_ne_empty : join path name ≠ "" := by
  rw [join_eq hpath hname]
  exact ofParts_ne_empty (fun _ => isPart_of_mem_concat hname) (by simp)

/-- The last component of a joined path is the name, and the others are those of the path. -/
theorem parts_join : parts (join path name) = parts path ++ [name] := by
  rw [join_eq hpath hname]
  refine parts_ofParts (fun _ => isPart_of_mem_concat hname) (by simp) ?_
  exact (settled_parts path).concat fun hup => absurd hup hname.ne_up

theorem extension_join : extension (join path name) = extension name := by
  rw [join_eq hpath hname]
  rcases ofParts_concat (isAbsolute path) (parts path) name with heq | ⟨front, heq⟩
  · rw [heq]
  · rw [heq, extension_append front hname.no_slash]

end Join

def joinAll (path : String) (names : List String) : String := names.foldl join path

theorem joinAll_ne_empty {path : String} {names : List String} (hpath : path ≠ "")
    (h : ∀ name ∈ names, IsName name) : joinAll path names ≠ "" := by
  induction names generalizing path with
  | nil => exact hpath
  | cons name names ih =>
    exact ih (join_ne_empty hpath (h name List.mem_cons_self)) fun n hn => h n (List.mem_cons_of_mem _ hn)

theorem parts_joinAll {path : String} {names : List String} (hpath : path ≠ "")
    (h : ∀ name ∈ names, IsName name) : parts (joinAll path names) = parts path ++ names := by
  induction names generalizing path with
  | nil => exact (List.append_nil _).symm
  | cons name names ih =>
    have hname := h name List.mem_cons_self
    have hrest := ih (join_ne_empty hpath hname) fun n hn => h n (List.mem_cons_of_mem _ hn)
    rw [joinAll, List.foldl_cons, ← joinAll, hrest, parts_join hpath hname, List.append_assoc]
    rfl

theorem joinAll_inj {path : String} {names others : List String} (hpath : path ≠ "") (h : ∀ n ∈ names, IsName n)
    (ho : ∀ n ∈ others, IsName n) (heq : joinAll path names = joinAll path others) : names = others := by
  have hparts := parts_joinAll hpath h
  rw [heq, parts_joinAll hpath ho] at hparts
  exact (List.append_cancel_left hparts).symm

theorem extension_joinAll {path name : String} {names : List String} (hpath : path ≠ "")
    (h : ∀ n ∈ names ++ [name], IsName n) : extension (joinAll path (names ++ [name])) = extension name := by
  have hnames := joinAll_ne_empty hpath fun n hn => h n (List.mem_append_left _ hn)
  rw [joinAll, List.foldl_append, List.foldl_cons, List.foldl_nil]
  exact extension_join hnames (h name (by simp))

end Path

end HostScript
