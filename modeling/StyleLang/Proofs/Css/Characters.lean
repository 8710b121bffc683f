import StyleLang.Proofs.Css.Words
import StyleLang.Proofs.Text.Ascii

/-!
# The characters of a CSS text

Main statement: the CSS of a flat tree, with an indent of ASCII characters, is an ASCII text.
-/

namespace StyleLang

theorem Value.Writable.isAscii {value : Value} (h : value.Writable) : IsAscii value.text := by
  cases value with
  | number m n => exact isAscii_number m n
  | color code => exact IsColor.lt h
  | bool b => cases b <;> decide

namespace Css

theorem isAscii_selector {n : Node} {w : List Char} (h : Grammar.Selector n w) :
    IsAscii n.text := by
  unfold IsAscii
  rw [text_selector h]
  cases h with
  | tag hw => exact hw.lt
  | className hw => exact List.forall_mem_cons.2 ⟨by decide, hw.lt⟩
  | id hw =>
    exact List.forall_mem_cons.2 ⟨by decide, fun c hc => lt_of_isNameChar (hw.2 c hc)⟩

theorem isAscii_line {n : Node} (hn : FlatLine n) {line : String} (h : declaration n = .ok line) :
    IsAscii line := by
  obtain @⟨pos, pos', property, value, hname, -, hvalue⟩ := hn
  obtain ⟨text, hprint, hline⟩ := bind_eq_ok.1 h
  obtain rfl := Except.ok.inj hline
  obtain ⟨-, rfl⟩ := print_eq_ok hprint
  have hproperty : IsAscii property := hname.lt
  have htext : IsAscii (Node.literal pos' value).text := hvalue.isAscii
  show IsAscii (property ++ ": " ++ (Node.literal pos' value).text ++ ";")
  simp only [isAscii_append]
  exact ⟨⟨⟨hproperty, by decide⟩, htext⟩, by decide⟩

theorem isAscii_rule {indent : String} (hindent : IsAscii indent) {n : Node} (hn : FlatRule n)
    {text : String} (h : rule indent n = .ok text) : IsAscii text := by
  obtain @⟨pos, selectors, body, ws, hselectors, hbody⟩ := hn
  obtain ⟨names, hnames, hrest⟩ := bind_eq_ok.1 h
  obtain ⟨lines, hlines, htext⟩ := bind_eq_ok.1 hrest
  obtain rfl := Except.ok.inj htext
  have hname : ∀ name ∈ names, IsAscii name := by
    refine forall_of_mapM (fun s hs name hname => ?_) hnames
    have hbare : s.bare ∈ Node.bareAll selectors := by
      rw [Node.bareAll_eq_map]
      exact List.mem_map_of_mem hs
    obtain ⟨w, hw⟩ := hselectors.exists_word hbare
    rw [(print_eq_ok hname).2, ← text_bare]
    exact isAscii_selector hw
  have hline : ∀ line ∈ lines, IsAscii line :=
    forall_of_mapM (fun m hm line => isAscii_line (hbody m hm)) hlines
  have hbodyText : IsAscii (String.join (lines.map fun line => indent ++ line ++ "\n")) := by
    refine isAscii_join fun s hs => ?_
    obtain ⟨line, hmem, rfl⟩ := List.mem_map.1 hs
    simp only [isAscii_append]
    exact ⟨⟨hindent, hline line hmem⟩, by decide⟩
  have hhead : IsAscii (", ".intercalate names) := isAscii_intercalate (by decide) hname
  simp only [isAscii_append]
  exact ⟨⟨⟨hhead, by decide⟩, hbodyText⟩, by decide⟩

/-- The CSS of a flat tree is an ASCII text. -/
theorem isAscii_css {sheet : Stylesheet} (h : ∀ n ∈ sheet.items, FlatRule n) {indent css : String}
    (hindent : IsAscii indent) (hcss : sheet.css indent = .ok css) : IsAscii css := by
  obtain ⟨rules, hrules, hjoin⟩ := bind_eq_ok.1 hcss
  obtain rfl := Except.ok.inj hjoin
  exact isAscii_intercalate (by decide)
    (forall_of_mapM (fun n hn text => isAscii_rule hindent (h n hn)) hrules)

end Css

end StyleLang
