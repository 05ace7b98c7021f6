/-
# The catalogue of standard texts

"Single-Path Constant-Time Transformation Engine", §12.8.

Texts that do not depend on the program under analysis are kept by identifier
in two languages.  English is complete; a text that another language lacks is
shown in English, and an identifier without any text is shown as it stands.

Identifiers are diagnostic codes (`SP0101`), suggestions for a code
(`suggestion.SP0101.0`, numbered from 0 without gaps) and a few labels.
-/

import ConstantTime.Text.Quoted
import ConstantTime.Text.Small

namespace ConstantTime

/-- The languages of the catalogue. -/
inductive Language where
  | english
  | chinese
deriving DecidableEq, Repr, Inhabited

namespace Language

/-- The language of a tag; a tag without a catalogue reads as English. -/
def ofTag (tag : String) : Language :=
  if tag = "zh" then .chinese else .english

/-- The language a user names, or the complaint that it has no catalogue. -/
def parse (name : String) : Except String Language :=
  let folded := Text.small name
  if folded ∈ ["zh", "zh-cn", "zh-tw", "zh-hk", "chinese"] then .ok .chinese
  else if folded ∈ ["", "en", "en-us", "en-gb", "english"] then .ok .english
  else .error s!"unsupported language {Text.quote name} (want en or zh)"

end Language

namespace Catalogue

/-- The English texts: all there are. -/
def english : List (String × String) := [
  ("SP0100", "irreducible control flow"),
  ("SP0101", "loop bound missing"),
  ("SP0102", "multiple function exit blocks"),
  ("SP0103", "compensation exceeds immediate width"),
  ("SP0104", "empty function"),
  ("SP0105", "unreachable block"),
  ("SP0106", "unknown block"),
  ("SP0107", "entry block has predecessors"),
  ("SP0108", "invalid function description"),
  ("SP0200", "equivalence class without unique root"),
  ("SP0201", "long instruction in second issue slot"),
  ("SP0202", "long instruction shares a bundle"),
  ("SP0203", "unresolvable scheduling dependencies"),
  ("SP0204", "invalid control dependency edge"),
  ("SP0205", "fixed point did not converge"),
  ("SP0206", "unsound dominator"),
  ("SP0207", "compensation does not conserve access counts"),
  ("SP0208", "instruction scheduled zero or multiple times"),
  ("SP0209", "analysis panicked"),
  ("SP0300", "no bounded end-dominators"),
  ("suggestion.SP0100.0", "restructure the loop so that it has a single entry block"),
  ("suggestion.SP0101.0",
    "annotate the loop header with a bound, e.g. `bound: \x7bmin: 1, max: 8\x7d`"),
  ("suggestion.SP0101.1", "or set `loop_bounds = \"default\"` in the configuration"),
  ("suggestion.SP0102.0",
    "merge the return blocks into a single exit block before single-path conversion"),
  ("suggestion.SP0103.0",
    "split the basic block so that fewer accesses are compensated on one edge"),
  ("suggestion.SP0105.0", "remove blocks that cannot be reached from the entry block"),
  ("suggestion.SP0300.0",
    "the function can still be converted using opposite-predicate compensation"),
  ("error.unknown", "unknown error"),
  ("note.internal", "this is an internal error of the single-path transformation"),
  ("label.help", "help"),
  ("label.note", "note")]

/-- The Chinese texts. -/
def chinese : List (String × String) := [
  ("SP0100", "不可归约的控制流"),
  ("SP0101", "循环缺少迭代次数边界"),
  ("SP0102", "函数有多个出口块"),
  ("SP0103", "补偿值超出立即数宽度"),
  ("SP0104", "空函数"),
  ("SP0105", "不可达的基本块"),
  ("SP0106", "未知的基本块"),
  ("SP0107", "入口块有前驱"),
  ("SP0108", "非法的函数描述"),
  ("SP0200", "等价类没有唯一的根"),
  ("SP0201", "长指令被调度到第二发射槽"),
  ("SP0202", "长指令与其他指令共享发射包"),
  ("SP0203", "调度依赖无法满足"),
  ("SP0204", "非法的控制依赖边"),
  ("SP0205", "不动点迭代未收敛"),
  ("SP0206", "支配关系不可靠"),
  ("SP0207", "补偿后各路径访存次数不一致"),
  ("SP0208", "指令未被调度或被重复调度"),
  ("SP0209", "分析过程中发生 panic"),
  ("SP0300", "无法建立有界结束块支配者"),
  ("suggestion.SP0100.0", "调整循环结构，使其只有一个入口块"),
  ("suggestion.SP0101.0", "为循环头标注边界，例如 `bound: \x7bmin: 1, max: 8\x7d`"),
  ("suggestion.SP0101.1", "或在配置中设置 `loop_bounds = \"default\"`"),
  ("suggestion.SP0102.0", "在单路径转换之前把返回块合并为一个出口块"),
  ("suggestion.SP0103.0", "拆分基本块，减少单条边上需要补偿的访存次数"),
  ("suggestion.SP0105.0", "删除入口块无法到达的基本块"),
  ("suggestion.SP0300.0", "该函数仍可使用反谓词填充方式转换"),
  ("error.unknown", "未知错误"),
  ("note.internal", "这是单路径转换的内部错误"),
  ("label.help", "帮助"),
  ("label.note", "注")]

/-- The texts of a language. -/
def texts : Language → List (String × String)
  | .english => english
  | .chinese => chinese

/-- Has an identifier a text?  English has every text there is. -/
def has (id : String) : Bool := (english.lookup id).isSome

/-- The text of an identifier: in the language, else in English, else the
identifier. -/
def text (lang : Language) (id : String) : String :=
  match (texts lang).lookup id with
  | some t => t
  | none => (english.lookup id).getD id

/-- The standard message of a diagnostic code. -/
def standardMessage (lang : Language) (code : String) : String :=
  if has code then text lang code else text lang "error.unknown"

/-- The identifier of the suggestion with a number for a code. -/
def suggestionId (code : String) (i : Nat) : String := s!"suggestion.{code}.{i}"

/-- What a user may do about a code.  Numbers run from 0 without gaps, so there
are no more suggestions than texts. -/
def suggestions (lang : Language) (code : String) : List String :=
  ((List.range english.length).map (suggestionId code)).takeWhile has |>.map (text lang)

end Catalogue
end ConstantTime
