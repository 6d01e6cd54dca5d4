import Grasshopper.Kconfig.Expr.Basic
import Grasshopper.Kconfig.Expr.Equality
import Grasshopper.Kconfig.Expr.Transform
import Grasshopper.Kconfig.Expr.Join
import Grasshopper.Kconfig.Expr.Dups
import Grasshopper.Kconfig.Expr.Guard
import Grasshopper.Kconfig.Expr.Normal
import Grasshopper.Kconfig.Expr.Compare
import Grasshopper.Kconfig.Expr.Definite
import Grasshopper.Kconfig.Menu.Tree
import Grasshopper.Kconfig.Menu.Finalize
import Grasshopper.Kconfig.Menu.Rule
import Grasshopper.Kconfig.Config
import Grasshopper.Kconfig.Menu.Conditions
import Grasshopper.Kconfig.Menu.Inherited
import Grasshopper.Kconfig.Menu.Structure
import Grasshopper.Kconfig.Menu.Members
import Grasshopper.Kconfig.Menu.Relinked
import Grasshopper.Library.Dependency
import Grasshopper.Kconfig.State
import Grasshopper.Kconfig.Symbol.Calc
import Grasshopper.Kconfig.Symbol.Keep
import Grasshopper.Kconfig.Symbol.CheckDeps
import Grasshopper.Kconfig.Symbol.Cycles
import Grasshopper.Kconfig.Symbol.Spec
import Grasshopper.Kconfig.Symbol.Frame
import Grasshopper.Kconfig.Symbol.Evaluate
import Grasshopper.Kconfig.Symbol.Recalc
import Grasshopper.Kconfig.Symbol.Order
import Grasshopper.Kconfig.Symbol.Set
import Grasshopper.Kconfig.Symbol.Range
import Grasshopper.Kconfig.Confdata.Read
import Grasshopper.Kconfig.Confdata.Load
import Grasshopper.Kconfig.Menu.Visible
import Grasshopper.Kconfig.Menu.Submenus
import Grasshopper.Kconfig.Confdata.Write
import Grasshopper.Kconfig.Confdata.Save
import Grasshopper.Library.Bytes
import Grasshopper.Sstrip.Elf
import Grasshopper.Sstrip.Pipeline
import Grasshopper.Sstrip.Run
import Grasshopper.Sstrip.Truncate
import Grasshopper.Sstrip.Stripped
import Grasshopper.Sstrip.Frame
import Grasshopper.Sstrip.Segments
import Grasshopper.Kconfig.Zconf.Nested
import Grasshopper.Kconfig.Symbol.Steady
import Grasshopper.Kconfig.Menu.Shown
import Grasshopper.Kconfig.Confdata.Rest
import Grasshopper.Kconfig.Confdata.Session
import Grasshopper.Kconfig.Symbol.Bounds
import Grasshopper.Kconfig.Confdata.Reload
import Grasshopper.Kconfig.Confdata.Choice
import Grasshopper.Kconfig.Confdata.Lines
import Grasshopper.Kconfig.Confdata.Saved
import Grasshopper.Kconfig.Confdata.Strings
import Grasshopper.Kconfig.Confdata.Roundtrip
import Grasshopper.Kconfig.Confdata.Normal
import Grasshopper.Kconfig.Symbol.Update
import Grasshopper.Kconfig.Conf.Walk
import Grasshopper.Kconfig.Conf.Moves
import Grasshopper.Kconfig.Conf.Complete
import Grasshopper.Kconfig.Conf.Unchanged
import Grasshopper.Kconfig.Conf.Settled
import Grasshopper.Kconfig.Mconf.BuildConf
import Grasshopper.Library.Flex
import Grasshopper.Kconfig.Zconf.Help
import Grasshopper.Kconfig.Zconf.Param
import Grasshopper.Kconfig.Zconf.Grammar
import Grasshopper.Library.Scanf
import Grasshopper.Makedevs.Main
import Grasshopper.Makedevs.Lines
import Grasshopper.Makedevs.Range
import Grasshopper.Makedevs.System
import Grasshopper.Makedevs.Status
import Grasshopper.Kconfig.Zconf.Newline
import Grasshopper.Library.Cstring
import Grasshopper.Lxdialog.Keys
import Grasshopper.Lxdialog.Inputbox
import Grasshopper.Lxdialog.Menubox
import Grasshopper.Mklibs.Provider
import Grasshopper.Mklibs.Usage
import Grasshopper.Library.Cancel
import Grasshopper.Kconfig.Expr.Rearrange
import Grasshopper.Kconfig.Expr.Complete
import Grasshopper.Kconfig.Expr.Memory
import Grasshopper.Kconfig.Expr.InPlace
import Grasshopper.Kconfig.Expr.Compared
