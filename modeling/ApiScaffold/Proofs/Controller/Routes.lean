import ApiScaffold.Proofs.Compile.Origins
import ApiScaffold.Proofs.Controller.Rendering

/-!
# Routes of the operations of a controller

The operations of a controller are routed below the first segment of their urls, each below its own:
the paths of one resource may spell that segment in different ways.

* `behindFirst?` is what a url says behind its first segment;
* `route_of_slash`, `route_of_no_slash`: the route is that, or the whole url;
* `routeDecorator_eq_iff`: operations are written with one decorator if they have one endpoint;
* `endpoint_eq_iff`: which operations of a stored controller have one endpoint.
-/

namespace ApiScaffold

open Naming Render ControllerFile

/-! ### Urls -/

/-- What a url that begins with a slash says behind its first segment: a slash and more, or just the
root. -/
def behindFirst? : List Char → Option (List Char)
  | '/' :: cs =>
    match cs.dropWhile (· != '/') with
    | [] => some ['/']
    | rest => some rest
  | _ => none

section Urls

variable {u s r : List Char}

/-- A url with a segment begins with a slash and that segment, or else with another character. -/
theorem url_cases (h : firstSegment u ≠ []) :
    (∃ s r, u = '/' :: (s ++ r) ∧ '/' ∉ s ∧ (r = [] ∨ ∃ t, r = '/' :: t)) ∨
      ∃ c cs, u = c :: cs ∧ c ≠ '/' := by
  cases u with
  | nil => exact absurd rfl h
  | cons c cs =>
    by_cases hc : c = '/'
    · subst hc
      left
      by_cases hcs : '/' ∈ cs
      · obtain ⟨s, t, rfl, hs⟩ := List.eq_append_cons_of_mem hcs
        exact ⟨s, '/' :: t, rfl, hs, Or.inr ⟨t, rfl⟩⟩
      · exact ⟨cs, [], by rw [List.append_nil], hcs, Or.inl rfl⟩
    · exact Or.inr ⟨c, cs, rfl, hc⟩

theorem firstSegment_of_slash (hs : '/' ∉ s) (hr : r = [] ∨ ∃ t, r = '/' :: t) :
    firstSegment ('/' :: (s ++ r)) = s := by
  have hroot : Text.splitOn '/' ([] ++ '/' :: (s ++ r)) = [] :: Text.splitOn '/' (s ++ r) :=
    Text.splitOn_append (by simp) _
  rw [List.nil_append] at hroot
  rw [firstSegment, hroot, List.getD_cons_succ]
  rcases hr with rfl | ⟨t, rfl⟩
  · rw [List.append_nil, Text.splitOn_of_notMem hs]
    rfl
  · rw [Text.splitOn_append hs]
    rfl

theorem dropSlashes_segment (hs : '/' ∉ s) (hne : s ≠ []) :
    dropSlashes ('/' :: s) = '/' :: s := by
  obtain ⟨front, c, rfl⟩ := (List.eq_nil_or_concat s).resolve_left hne
  have hc : ¬ (c == '/') = true := by
    rw [beq_iff_eq]
    rintro rfl
    exact hs (by simp)
  rw [dropSlashes, Text.dropSuffixWhile, List.concat_eq_append, ← List.cons_append,
    List.reverse_append, List.reverse_singleton, List.singleton_append,
    List.dropWhile_cons_of_neg (p := (· == '/')) hc, ← List.singleton_append, List.reverse_append,
    List.reverse_reverse, List.reverse_singleton]

theorem behindFirst?_of_ne {c : Char} {cs : List Char} (hc : c ≠ '/') :
    behindFirst? (c :: cs) = none := by
  unfold behindFirst?
  split
  · next heq => exact absurd (List.cons.inj heq).1 hc
  · rfl

/-- What a url says behind its first segment begins with a slash. -/
theorem exists_of_behindFirst? (h : behindFirst? u = some r) : ∃ t, r = '/' :: t := by
  unfold behindFirst? at h
  split at h
  · next cs =>
    split at h
    · exact ⟨[], (Option.some.inj h).symm⟩
    · next rest hrest =>
      obtain ⟨d, ds, hd⟩ := List.exists_cons_of_ne_nil hrest
      have hhead := List.head?_dropWhile_not (· != '/') cs
      rw [hd] at hhead
      obtain rfl : d = '/' := by simpa using hhead
      exact ⟨ds, by rw [← Option.some.inj h, hd]⟩
  · cases h

/-- **The route of a url that begins with a slash** is what it says behind its first segment. -/
theorem route_of_slash (hne : s ≠ []) (hs : '/' ∉ s) (hr : r = [] ∨ ∃ t, r = '/' :: t) :
    behindFirst? ('/' :: (s ++ r)) =
      some (routeSuffix ('/' :: (s ++ r)) (baseRoute ('/' :: (s ++ r)))) := by
  have hseg : ∀ c ∈ s, (c != '/') = true := fun c hc => bne_iff_ne.2 fun heq => hs (heq ▸ hc)
  have hdrop : (s ++ r).dropWhile (· != '/') = r := by
    rw [List.dropWhile_append_of_pos hseg]
    rcases hr with rfl | ⟨t, rfl⟩ <;> rfl
  have hbelow : ('/' :: (s ++ r) == '/' :: s ||
      (('/' :: s) ++ ['/']).isPrefixOf ('/' :: (s ++ r))) = true := by
    rcases hr with rfl | ⟨t, rfl⟩
    · simp
    · rw [Bool.or_eq_true, List.isPrefixOf_iff_prefix]
      exact Or.inr ⟨t, by simp⟩
  have hrest : ('/' :: (s ++ r)).drop ('/' :: s).length = r := by
    rw [← List.cons_append, List.drop_left]
  rw [routeSuffix, baseRoute, firstSegment_of_slash hs hr, dropSlashes_segment hs hne]
  simp only [List.isEmpty_cons, Bool.not_false, Bool.true_and, hbelow, if_true, hrest]
  rw [behindFirst?, hdrop]
  cases r <;> rfl

/-- **Any other url is its own route.** -/
theorem route_of_no_slash {c : Char} {cs base : List Char} (hc : c ≠ '/') :
    routeSuffix (c :: cs) ('/' :: base) = c :: cs := by
  have hroot : dropSlashes ('/' :: base) = [] ∨ ∃ ds, dropSlashes ('/' :: base) = '/' :: ds := by
    have hsplit := Text.dropSuffixWhile_append_takeSuffixWhile (· == '/') ('/' :: base)
    rw [dropSlashes]
    cases hdrop : Text.dropSuffixWhile (· == '/') ('/' :: base) with
    | nil => exact Or.inl rfl
    | cons d ds =>
      rw [hdrop, List.cons_append] at hsplit
      exact Or.inr ⟨ds, by rw [(List.cons.inj hsplit).1]⟩
  have hhead : (dropSlashes ('/' :: base) ++ ['/']).isPrefixOf (c :: cs) = false := by
    rcases hroot with h | ⟨ds, h⟩ <;> rw [h] <;> simp [List.isPrefixOf, Ne.symm hc]
  have hself : (c :: cs == '/' :: base) = false :=
    beq_eq_false_iff_ne.2 fun heq => hc (List.cons.inj heq).1
  rw [routeSuffix]
  simp [hhead, hself]

end Urls

/-! ### Endpoints -/

/-- The decorator and the route by which an operation is answered. -/
def Method.endpoint (m : Method) : String × List Char := (m.verb.decorator, methodRoute m)

theorem Verb.decorator_inj {v w : Verb} : v.decorator = w.decorator ↔ v = w := by
  cases v <;> cases w <;> decide

/-- An operation is written below its decorator. -/
theorem exists_controllerMethod_eq (field : List Char) (m : Method) :
    ∃ rest, controllerMethod field m = routeDecorator m ++ '\n' :: rest := ⟨_, rfl⟩

/-- The decorators of two operations are written alike exactly if their endpoints are the same. -/
theorem routeDecorator_eq_iff {m k : Method} :
    routeDecorator m = routeDecorator k ↔ m.endpoint = k.endpoint := by
  have hsplit : ∀ o : Method, routeDecorator o = ('@' :: o.verb.decorator.toList) ++
      '(' :: ("\x7b description: \"\", path: \"".toList ++ (methodRoute o ++ "\" \x7d)".toList)) :=
    fun o => by simp [routeDecorator]
  have hverb : ∀ v : Verb, '(' ∉ '@' :: v.decorator.toList := by
    rintro (_ | _ | _ | _ | _) <;> decide
  rw [Method.endpoint, Method.endpoint, Prod.mk.injEq]
  constructor
  · intro h
    rw [hsplit, hsplit] at h
    obtain ⟨hdecorator, hbehind⟩ := TypeScript.append_cons_inj_of_notMem (hverb _) (hverb _) h
    exact ⟨String.toList_inj.1 (List.cons.inj hdecorator).2,
      List.append_cancel_right (List.append_cancel_left hbehind)⟩
  · rintro ⟨hdecorator, hroute⟩
    rw [hsplit, hsplit, hdecorator, hroute]

/-- A path without a segment belongs to no resource. -/
theorem firstSegment_ne_nil {url : String} (h : resourceOf url ≠ "") :
    firstSegment url.toList ≠ [] := by
  intro hnil
  refine h ?_
  rw [resourceOf, resourceName, hnil]
  decide

/-- The route of an operation that belongs to a resource. -/
theorem methodRoute_cases {m : Method} (h : resourceOf m.url ≠ "") :
    (∃ t, methodRoute m = '/' :: t ∧ behindFirst? m.url.toList = some ('/' :: t)) ∨
      methodRoute m = m.url.toList ∧ behindFirst? m.url.toList = none ∧
        ∀ t, methodRoute m ≠ '/' :: t := by
  have hne := firstSegment_ne_nil h
  rw [methodRoute]
  rcases url_cases hne with ⟨s, r, hu, hs, hr⟩ | ⟨c, cs, hu, hc⟩
  · rw [hu] at hne ⊢
    rw [firstSegment_of_slash hs hr] at hne
    have hroute := route_of_slash hne hs hr
    obtain ⟨t, ht⟩ := exists_of_behindFirst? hroute
    exact Or.inl ⟨t, ht, hroute.trans (congrArg some ht)⟩
  · have hroute : routeSuffix (c :: cs) (baseRoute (c :: cs)) = c :: cs := route_of_no_slash hc
    rw [hu, hroute]
    exact Or.inr ⟨rfl, behindFirst?_of_ne hc, fun t heq => hc (List.cons.inj heq).1⟩

/-- **Which operations of a stored controller have one endpoint:** those with one verb whose urls
are the same, or say the same behind their first segments. -/
theorem endpoint_eq_iff (run : List Compilation) {n : String} {c : Controller}
    (h : (n, c) ∈ (runAll run).controllers.entries) {m k : Method} (hm : m ∈ c.methods)
    (hk : k ∈ c.methods) :
    m.endpoint = k.endpoint ↔ m.verb = k.verb ∧
      (m.url = k.url ∨ ∃ route, behindFirst? m.url.toList = some route ∧
        behindFirst? k.url.toList = some route) := by
  have hname : n ≠ "" := (controllerBranch.madeBy h).name_ne
  have hresource : ∀ o ∈ c.methods, resourceOf o.url ≠ "" := fun o ho => by
    rwa [(controllerBranch.stemsFrom h ho).resourceOf_url]
  rw [Method.endpoint, Method.endpoint, Prod.mk.injEq, Verb.decorator_inj]
  refine and_congr_right fun _ => ?_
  rw [← String.toList_inj]
  rcases methodRoute_cases (hresource m hm) with ⟨t, hmr, hmb⟩ | ⟨hmr, hmb, hmne⟩ <;>
    rcases methodRoute_cases (hresource k hk) with ⟨u, hkr, hkb⟩ | ⟨hkr, hkb, hkne⟩
  · -- Both urls begin with a slash, and both routes are what stands behind the first segment.
    rw [hmb, hkb, hmr, hkr]
    constructor
    · intro hroute
      exact Or.inr ⟨_, rfl, by rw [hroute]⟩
    · rintro (hurl | ⟨route, hroute, hroute'⟩)
      · rw [hurl, hkb] at hmb
        exact (Option.some.inj hmb).symm
      · exact (Option.some.inj hroute).trans (Option.some.inj hroute').symm
  · -- One url begins with a slash, and so does its route.
    refine iff_of_false (fun hroute => hkne t (hroute.symm.trans hmr)) ?_
    rintro (hurl | ⟨route, -, hroute⟩)
    · rw [hurl, hkb] at hmb
      cases hmb
    · rw [hkb] at hroute
      cases hroute
  · refine iff_of_false (fun hroute => hmne u (hroute.trans hkr)) ?_
    rintro (hurl | ⟨route, hroute, -⟩)
    · rw [← hurl, hmb] at hkb
      cases hkb
    · rw [hmb] at hroute
      cases hroute
  · -- Neither does, and the routes are the urls.
    rw [hmr, hkr, hmb]
    simp

/-- Pets under two spellings of their segment, each with an operation on all of them and one on a
single pet. -/
def twoSpellings : Value := .record [("paths", .record
  [("/pets", .record [("get", .record [("operationId", .text "listPets")])]),
    ("/pet", .record [("get", .record [("operationId", .text "findPet")])]),
    ("/pet/{id}", .record [("get", .record [("operationId", .text "getPet")])])])]

/-- The operation on a single pet has an endpoint of its own. -/
theorem endpoint_eq_iff_twoSpellings :
    ∃ c, ("Pet", c) ∈ (runAll [⟨.controllers, {}, twoSpellings⟩]).controllers.entries ∧
      ∃ m ∈ c.methods, ∃ k ∈ c.methods, m.url = "/pets" ∧ k.url = "/pet/{id}" ∧
        m.verb = k.verb ∧ m.endpoint ≠ k.endpoint := by
  have hstored : ∃ e ∈ (runAll [⟨.controllers, {}, twoSpellings⟩]).controllers.entries,
      e.1 = "Pet" ∧ ∃ m ∈ e.2.methods, ∃ k ∈ e.2.methods,
        m.url = "/pets" ∧ k.url = "/pet/{id}" ∧ m.verb = k.verb := by decide +kernel
  obtain ⟨⟨n, c⟩, hc, rfl, m, hm, k, hk, hmu, hku, hverb⟩ := hstored
  refine ⟨c, hc, m, hm, k, hk, hmu, hku, hverb, fun heq => ?_⟩
  have hboth := ((endpoint_eq_iff _ hc hm hk).1 heq).2
  rw [hmu, hku] at hboth
  rcases hboth with hurl | ⟨route, hroute, hroute'⟩
  · exact absurd hurl (by decide)
  · exact absurd (hroute.trans hroute'.symm) (by decide)

/-- **Two operations on all pets share an endpoint,** since their urls differ in nothing but the
spelling of the first segment. -/
theorem twoSpellings_endpoint_shared :
    ∃ e ∈ (runAll [⟨.controllers, {}, twoSpellings⟩]).controllers.entries,
      ∃ m ∈ e.2.methods, ∃ k ∈ e.2.methods,
        (m.verb, m.url) ≠ (k.verb, k.url) ∧ m.endpoint = k.endpoint := by
  decide +kernel

end ApiScaffold
