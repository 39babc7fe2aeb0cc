import BasicDemo.Library.Runs
import BasicDemo.Library.Simulation
import BasicDemo.Library.Counting
import BasicDemo.Library.Classes
import BasicDemo.Library.Methods
import BasicDemo.Library.Ancestors
import BasicDemo.Library.Nesting
import BasicDemo.Library.Iterates
import BasicDemo.Library.Chains
import BasicDemo.Library.Loops
import BasicDemo.Library.Arrays
import BasicDemo.Library.Windows
import BasicDemo.Library.Stdlib
import BasicDemo.Library.Pivots
import BasicDemo.Library.Grids
import BasicDemo.Library.Trees
import BasicDemo.Timer.Registry
import BasicDemo.Timer.Live
import BasicDemo.Timer.Screens
import BasicDemo.Observing.Names
import BasicDemo.Observing.Model
import BasicDemo.Observing.Swizzling
import BasicDemo.Observing.Delivery
import BasicDemo.Observing.Deregistration
import BasicDemo.Aspects.HookSelector
import BasicDemo.Aspects.Tracker
import BasicDemo.Aspects.Hierarchy
import BasicDemo.Aspects.World
import BasicDemo.Aspects.Installed
import BasicDemo.Aspects.Adding
import BasicDemo.Aspects.Dispatch
import BasicDemo.Aspects.Removal
import BasicDemo.Dispatch.Semaphore
import BasicDemo.Dispatch.Permits
import BasicDemo.Fluecy.Monitor
import BasicDemo.Fluecy.Silence
import BasicDemo.Fluecy.Pings
import BasicDemo.Fluecy.Restart
import BasicDemo.Locks.SafeAnalysis
import BasicDemo.Locks.Discipline
import BasicDemo.Locks.Monitor
import BasicDemo.Locks.ConditionLock
import BasicDemo.LeetCode.ValidParentheses
import BasicDemo.LeetCode.ParenthesesBlock
import BasicDemo.LeetCode.HasCycle
import BasicDemo.LeetCode.ReverseList
import BasicDemo.LeetCode.ReverseCycle
import BasicDemo.LeetCode.AddTwoNumbers
import BasicDemo.LeetCode.SameTree
import BasicDemo.LeetCode.IsSubtree
import BasicDemo.LeetCode.ConstructNodeList
import BasicDemo.LeetCode.RandomCir
import BasicDemo.LeetCode.RotateArray
import BasicDemo.LeetCode.CharReverse
import BasicDemo.LeetCode.MaxProfit
import BasicDemo.LeetCode.ContainsDuplicate
import BasicDemo.LeetCode.MoveZeroes
import BasicDemo.LeetCode.FindFirstChar
import BasicDemo.LeetCode.FindRepeatNumber
import BasicDemo.LeetCode.SingleNumber
import BasicDemo.LeetCode.MergeSortedArray
import BasicDemo.LeetCode.BubbldSort
import BasicDemo.LeetCode.SortArray
import BasicDemo.LeetCode.FindMiddleCount
import BasicDemo.LeetCode.Partitions
import BasicDemo.LeetCode.LongestSubstring
import BasicDemo.LeetCode.MaxProfitTwo
import BasicDemo.LeetCode.FindCommonView
import BasicDemo.LeetCode.Intersect
import BasicDemo.LeetCode.FindNumberIn2DArray
import BasicDemo.LeetCode.ArrayFindNum
import BasicDemo.LeetCode.ConstructArr
import BasicDemo.LeetCode.ValidSudoku
import BasicDemo.LeetCode.RemoveDuplicates
import BasicDemo.LeetCode.PlusOne
import BasicDemo.LeetCode.TwoSum
