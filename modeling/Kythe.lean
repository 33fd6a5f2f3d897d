import Kythe.Bytes
import Kythe.Proto
import Kythe.KeyValue.Codec
import Kythe.KeyValue.Order
import Kythe.KeyValue.DB
import Kythe.KeyValue.Store
import Kythe.KeyValue.Shards
import Kythe.KeyValue.Runs
import Kythe.KeyValue.Delivery
import Kythe.KeyValue.WriteOrder
import Kythe.FileTree.Filepath
import Kythe.FileTree.Map
import Kythe.FileTree.AddFile
import Kythe.FileTree.Populate
import Kythe.Serving.FileTree
import Kythe.VNameUtil.Regexp
import Kythe.VNameUtil.Rewrite
import Kythe.VNameUtil.Expand
import Kythe.VNameUtil.Template
